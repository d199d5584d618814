/-
  Firebuild.CommandRewriter — which commands are rewritten (`command_rewriter.cc`), and by which
  arguments a child is recognised (`process.cc`: `argv_matches_expectation`).

  (1) Recognising. What comes after the first word is not compared pairwise: every actual argument
  is compared with the first of the expected ones, and the command of an old "sh -c" not at all. So
  the right child can be rejected and a wrong one accepted (`arguments_are_compared_with_one`,
  `argv_matches_iff`).

  (2) Rewriting (`rewriting_is_safe_iff`). "-E" is put at position 5 if there is a "-M", also into a
  list that is shorter, and a static emulator is prefixed with itself when its own command line is
  rewritten again (`a_short_list_is_left`).

  (3) A command with a new argument is not recognised, a command that is run by the emulator is if
  its arguments are all the same (`rewritten_accepted_iff`).

  `none` is an access or an insertion outside of a list.
-/

import Mathlib.Data.List.DropRight

namespace Firebuild.CommandRewriter

open List

abbrev Arg := List Char

def toArgs (l : List String) : List Arg := l.map String.toList

/-! ## Recognising -/

def argvMatchFromOffset (actual : List Arg) (actualOffset : Nat) (expected : List Arg) (expectedOffset : Nat) : Bool :=
  actual.length - actualOffset = expected.length - expectedOffset &&
    (actual.drop actualOffset).all fun x => expected[expectedOffset]? = some x

/-- Without a slash, the word got a path in front of it. -/
def Fits (w x : Arg) : Prop := if '/' ∈ w then x = w else '/' :: w <:+ x

instance (w x : Arg) : Decidable (Fits w x) := inferInstanceAs (Decidable (if '/' ∈ w then x = w else '/' :: w <:+ x))

/-- `oldLibc` is glibc before 2.38. -/
def argvMatchesExpectation (oldLibc : Bool) (actual expected : List Arg) : Option Bool :=
  if actual.length = expected.length then some (actual = expected)
  else if actual.length > expected.length then
    let offset := actual.length - expected.length
    match expected[0]?, actual[offset]? with
    | some w, some x => some (decide (Fits w x) && argvMatchFromOffset actual (offset + 1) expected 1)
    | _, _ => none
  else
    some (oldLibc && expected.take 3 = ["sh".toList, "-c".toList, "--".toList] && 2 < actual.length &&
      actual[2]? ≠ some "--".toList && actual.take 2 = ["sh".toList, "-c".toList] &&
      argvMatchFromOffset actual 3 expected 4)

abbrev shC (rest : List Arg) : List Arg := "sh".toList :: "-c".toList :: rest

inductive Started (oldLibc : Bool) (actual expected : List Arg) : Prop
  | same (h : actual = expected)
  | interpreted (interpreter rest : List Arg) (w x : Arg) (hi : interpreter ≠ []) (he : expected = w :: rest)
    (ha : actual = interpreter ++ x :: rest) (hx : Fits w x)
  | oldShell (rest : List Arg) (hold : oldLibc = true) (he : expected = shC ("--".toList :: rest))
    (ha : actual = shC rest)

/-- All are what is expected first. -/
def Repeats (actual expected : List Arg) : Prop :=
  actual.length = expected.length ∧ ∀ x ∈ actual, expected.head? = some x

theorem argvMatchFromOffset_iff :
    argvMatchFromOffset actual m expected n = true ↔ Repeats (actual.drop m) (expected.drop n) := by
  simp [argvMatchFromOffset, Repeats]

/-- Comparing all of `actual` with the first of `expected` tells whether they are equal: equal lists have
only that one argument, and others have another one or another length. -/
def FirstDecides (actual expected : List Arg) : Prop :=
  if actual = expected then ∀ y ∈ expected, expected.head? = some y
  else actual.length ≠ expected.length ∨ ∃ x ∈ actual, expected.head? ≠ some x

theorem firstDecides_iff : FirstDecides a e ↔ (Repeats a e ↔ a = e) := by
  unfold FirstDecides Repeats
  split
  · rename_i h
    simp [h]
  · rename_i h
    simp [h, imp_iff_not_or]

/-- The same for what follows "sh -c", the first of which is not compared. -/
def ShellDecides (actual expected : List Arg) : Prop :=
  if actual = expected then
    actual ≠ [] ∧ actual.head? ≠ some "--".toList ∧ ∀ y ∈ expected.tail, expected.tail.head? = some y
  else actual = [] ∨ actual.head? = some "--".toList ∨ actual.length ≠ expected.length ∨
    ∃ x ∈ actual.tail, expected.tail.head? ≠ some x

theorem shellDecides_iff (hle : a.length ≤ e.length) :
    ShellDecides a e ↔ (a ≠ [] ∧ a.head? ≠ some "--".toList ∧ Repeats a.tail e.tail ↔ a = e) := by
  unfold ShellDecides
  split
  · rename_i h
    subst h
    simp [Repeats]
  · rename_i h
    cases a with
    | nil => simp [h]
    | cons x a =>
      cases e with
      | nil => simp at hle
      | cons y e => simp [h, Repeats, imp_iff_not_or]

/-- The comparison that is made is the one that should be. -/
structure Comparable (oldLibc : Bool) (actual expected : List Arg) : Prop where
  longer : actual.length > expected.length → ∃ w e, expected = w :: e ∧
    ∀ i x a, actual = i ++ x :: a → a.length = e.length → Fits w x → FirstDecides a e
  shorter : oldLibc = true → ∀ a e, expected = shC ("--".toList :: e) → actual = shC a → a.length ≤ e.length →
    ShellDecides a e

theorem split_at (h : n < l.length) : ∃ i x a, l = i ++ x :: a ∧ a.length = n := by
  have hd : (l.drop (l.length - n - 1)).length = n + 1 := by
    rw [length_drop]
    omega
  cases hc : l.drop (l.length - n - 1) with
  | nil => simp [hc] at hd
  | cons x a => exact ⟨_, x, a, by rw [← hc, take_append_drop], by simpa [hc] using hd⟩

variable {old : Bool} {actual expected i : List Arg}

theorem matches_longer {w x : Arg} (hi : i ≠ []) (ha : a.length = e.length) :
    ∃ b, argvMatchesExpectation old (i ++ x :: a) (w :: e) = some b ∧ (b = true ↔ Fits w x ∧ Repeats a e) := by
  have hpos : 0 < i.length := length_pos_iff.mpr hi
  have hoff : (i ++ x :: a).length - (w :: e).length = i.length := by simp [ha]
  refine ⟨decide (Fits w x) && argvMatchFromOffset (i ++ x :: a) (i.length + 1) (w :: e) 1, ?_, ?_⟩
  · rw [argvMatchesExpectation, if_neg (by simp; omega), if_pos (by simp; omega), hoff]
    simp only [List.getElem?_cons_zero, List.getElem?_append_right le_rfl, Nat.sub_self]
  · simp [argvMatchFromOffset_iff]

theorem matches_shorter (h : actual.length < expected.length) : ∃ b, argvMatchesExpectation old actual expected = some b ∧
    (b = true ↔ old = true ∧ ∃ a e, expected = shC ("--".toList :: e) ∧ actual = shC a ∧ a ≠ [] ∧
      a.head? ≠ some "--".toList ∧ Repeats a.tail e.tail) := by
  refine ⟨_, by rw [argvMatchesExpectation, if_neg h.ne, if_neg h.not_gt], ?_⟩
  simp only [Bool.and_eq_true, decide_eq_true_eq, argvMatchFromOffset_iff]
  constructor
  · rintro ⟨⟨⟨⟨⟨hold, he⟩, hlen⟩, hdash⟩, ha⟩, hrest⟩
    obtain ⟨e, rfl⟩ : ∃ e, expected = _ :: _ :: _ :: e := ⟨_, by rw [← expected.take_append_drop 3, he]; rfl⟩
    obtain ⟨a, rfl⟩ : ∃ a, actual = _ :: _ :: a := ⟨_, by rw [← actual.take_append_drop 2, ha]; rfl⟩
    exact ⟨hold, a, e, rfl, rfl, by rintro rfl; simp at hlen, by simpa [List.head?_eq_getElem?] using hdash, by simpa using hrest⟩
  · rintro ⟨hold, a, e, rfl, rfl, ha, hdash, hrest⟩
    exact ⟨⟨⟨⟨⟨hold, rfl⟩, by simpa [length_pos_iff] using ha⟩, by simpa [List.head?_eq_getElem?] using hdash⟩, rfl⟩,
      by simpa using hrest⟩

theorem started_longer (hi : i ≠ []) (ha : a.length = e.length) :
    Started old (i ++ x :: a) (w :: e) ↔ Fits w x ∧ a = e := by
  have hpos : 0 < i.length := length_pos_iff.mpr hi
  constructor
  · rintro (h | ⟨i', e', w', x', -, he, h, hx⟩ | ⟨rest, -, he, h⟩)
    · have := congrArg List.length h
      simp only [length_append, length_cons] at this
      omega
    · cases he
      obtain ⟨-, h⟩ := append_inj' h (by simp [ha])
      cases h
      exact ⟨hx, rfl⟩
    · have h := congrArg List.length h
      have he := congrArg List.length he
      simp only [length_append, length_cons] at h he
      omega
  · rintro ⟨hx, rfl⟩
    exact .interpreted i a w x hi rfl rfl hx

theorem started_shorter (h : actual.length < expected.length) : Started old actual expected ↔ old = true ∧
    ∃ e, expected = shC ("--".toList :: e) ∧ actual = shC e := by
  constructor
  · rintro (rfl | ⟨i, e, w, x, -, rfl, rfl, -⟩ | ⟨e, hold, he, ha⟩)
    · omega
    · simp at h
      omega
    · exact ⟨hold, e, he, ha⟩
  · rintro ⟨hold, e, he, ha⟩
    exact .oldShell e hold he ha

/-- A child is accepted exactly if it is the one that was started, if and only if the comparison with one argument
comes to the same as the comparison of all. -/
theorem argv_matches_iff : (∃ b, argvMatchesExpectation old actual expected = some b ∧
    (b = true ↔ Started old actual expected)) ↔ Comparable old actual expected := by
  obtain hlt | heq | hgt := Nat.lt_trichotomy actual.length expected.length
  · obtain ⟨b, hb, hiff⟩ := @matches_shorter old _ _ hlt
    simp only [hb, Option.some.injEq, exists_eq_left', hiff, started_shorter hlt]
    constructor
    · refine fun h => ⟨fun hgt => absurd hgt hlt.not_gt, fun hold a e he ha hle => (shellDecides_iff hle).mpr ?_⟩
      subst he ha
      simpa [hold] using h
    refine fun h => and_congr_right fun hold => ⟨?_, ?_⟩
    · rintro ⟨a, e, rfl, rfl, ha⟩
      have hle : a.length ≤ e.length := by simpa [Nat.lt_succ_iff] using hlt
      exact ⟨e, rfl, by rw [((shellDecides_iff hle).mp (h.shorter hold a e rfl rfl hle)).mp ha]⟩
    · rintro ⟨e, rfl, rfl⟩
      exact ⟨e, e, rfl, rfl, ((shellDecides_iff le_rfl).mp (h.shorter hold e e rfl rfl le_rfl)).mpr rfl⟩
  · refine iff_of_true ⟨_, by rw [argvMatchesExpectation, if_pos heq], ?_⟩ ⟨fun h => absurd heq h.ne', ?_⟩
    · rw [decide_eq_true_iff]
      refine ⟨.same, ?_⟩
      rintro (h | ⟨i, e, w, x, hi, rfl, rfl, -⟩ | ⟨e, -, rfl, rfl⟩)
      · exact h
      · simp at heq
        exact absurd heq hi
      · simp at heq
    · rintro - a e rfl rfl hle
      simp at heq
      omega
  · have hshort : ∀ a e, expected = shC ("--".toList :: e) → actual = shC a → ¬a.length ≤ e.length := by
      rintro a e rfl rfl hle
      simp at hgt
      omega
    cases expected with
    | nil =>
      refine iff_of_false ?_ fun h => ?_
      · rintro ⟨b, hb, -⟩
        rw [argvMatchesExpectation, if_neg hgt.ne', if_pos hgt] at hb
        cases hb
      · obtain ⟨w, e, he, -⟩ := h.longer hgt
        cases he
    | cons w e =>
      obtain ⟨i, x, a, rfl, ha⟩ := split_at (by simpa using Nat.lt_of_succ_lt hgt)
      have hi : i ≠ [] := by
        rintro rfl
        simp [ha] at hgt
      obtain ⟨b, hb, hiff⟩ := @matches_longer old i a e w x hi ha
      simp only [hb, Option.some.injEq, exists_eq_left', hiff, started_longer hi ha]
      constructor
      · refine fun h => ⟨fun _ => ⟨w, e, rfl, fun i' x' a' heq ha' hx => firstDecides_iff.mpr ?_⟩,
          fun _ a e he ha hle => absurd hle (hshort a e he ha)⟩
        obtain ⟨-, ⟨⟩⟩ := append_inj' heq (by simp [ha, ha'])
        simpa [hx] using h
      intro h
      obtain ⟨w, e, he, hall⟩ := h.longer hgt
      cases he
      exact and_congr_right fun hx => firstDecides_iff.mp (hall i x a rfl ha hx)

/-- The right arguments are rejected, and wrong ones accepted. -/
theorem arguments_are_compared_with_one :
    argvMatchesExpectation false (toArgs ["sh", "./cc", "-c", "a.c"]) (toArgs ["cc", "-c", "a.c"]) = some false ∧
    argvMatchesExpectation false (toArgs ["sh", "./cc", "-c", "-c"]) (toArgs ["cc", "-c", "a.c"]) = some true ∧
    argvMatchesExpectation true (toArgs ["sh", "-c", "make"]) (toArgs ["sh", "-c", "--", "true"]) = some true := by decide

/-! ## Rewriting -/

structure Cfg where
  dontShortcut : Arg → Bool
  qemuUser : Option Arg
  /-- What `get_is_static` finds. -/
  isStatic : Arg → Bool

def baseName (path : Arg) : Arg := path.rtakeWhile (· ≠ '/')

def addArgument (cfg : Cfg) (pattern arg : Arg) (position : Nat) (name : Arg) (args : List Arg) : Option (List Arg) :=
  if name = pattern ∧ cfg.dontShortcut name = false then
    if arg ∈ args then some args
    else if position ≤ args.length then some (args.take position ++ arg :: args.drop position)
    else none
  else some args

def replaceArgument (cfg : Cfg) (pattern oldArg : Arg) (newArgs : List Arg) (name : Arg) (args : List Arg) : List Arg :=
  if name = pattern ∧ cfg.dontShortcut name = false then
    args.flatMap fun a => if a = oldArg then newArgs else [a]
  else args

def byName (cfg : Cfg) : List Arg → Option (List Arg)
  | [] => some []
  | w :: rest =>
    let args := w :: rest
    let name := baseName w
    if name = "sphinx-build".toList ∧ "--fresh-env".toList ∉ args then
      addArgument cfg "sphinx-build".toList "-E".toList (if "-M".toList ∈ args then 5 else 1) name args
    else if "clang".toList <+: name ∧ "-fno-pch-timestamp".toList ∉ args then
      some (replaceArgument cfg name "-emit-pch".toList
        (if "-cc1".toList ∈ args then toArgs ["-emit-pch", "-fno-pch-timestamp"]
        else toArgs ["-emit-pch", "-Xclang", "-fno-pch-timestamp"]) name args)
    else some args

/-- The executable's path is put in place of a name. -/
def withPath (executable : Arg) : List Arg → List Arg
  | [] => []
  | w :: rest => (if '/' ∈ w then w else executable) :: rest

/-- `qemu_user`, if the executable is static. -/
def Cfg.emulator (cfg : Cfg) (executable : Arg) : Option Arg := if cfg.isStatic executable then cfg.qemuUser else none

def emulated (qemu executable : Arg) (args : List Arg) : List Arg :=
  qemu :: "-libc-syscalls".toList :: withPath executable args

def maybeRewrite (cfg : Cfg) (executable : Arg) (args : List Arg) : Option (Arg × List Arg) :=
  (byName cfg args).map fun args =>
    match cfg.emulator executable with
    | some qemu => (qemu, emulated qemu executable args)
    | none => (executable, args)

variable {cfg : Cfg} {executable qemu name : Arg} {args r : List Arg}

/-- "-E" is inserted. -/
def SphinxRule (cfg : Cfg) (name : Arg) (args : List Arg) : Prop :=
  name = "sphinx-build".toList ∧ cfg.dontShortcut name = false ∧ "--fresh-env".toList ∉ args ∧ "-E".toList ∉ args

/-- "-fno-pch-timestamp" is inserted. -/
def ClangRule (cfg : Cfg) (name : Arg) (args : List Arg) : Prop :=
  "clang".toList <+: name ∧ cfg.dontShortcut name = false ∧ "-fno-pch-timestamp".toList ∉ args ∧ "-emit-pch".toList ∈ args

/-- The name the rules go by. -/
def commandName (args : List Arg) : Arg := baseName (args.headD [])

section

variable {old n : Arg} {new l : List Arg}

theorem flatMap_absent (h : old ∉ l) : (l.flatMap fun a => if a = old then new else [a]) = l := by
  induction l with
  | nil => rfl
  | cons a l ih =>
    obtain ⟨ha, hl⟩ := not_or.mp (mt mem_cons.mpr h)
    rw [flatMap_cons, if_neg (Ne.symm ha), ih hl, singleton_append]

/-- The last of them is replaced last. -/
theorem flatMap_ends (h : old ∈ l) :
    ∃ q s, (l.flatMap fun a => if a = old then new ++ [n] else [a]) = q ++ n :: s ∧ s.length < l.length := by
  induction l with
  | nil => cases h
  | cons a l ih =>
    by_cases hl : old ∈ l
    · obtain ⟨q, s, heq, hs⟩ := ih hl
      exact ⟨_ ++ q, s, by rw [flatMap_cons, heq, append_assoc], hs.trans (Nat.lt_succ_self _)⟩
    · obtain rfl : old = a := by simpa [hl] using h
      exact ⟨new, l, by rw [flatMap_cons, flatMap_absent hl, if_pos rfl, append_assoc]; rfl, Nat.lt_succ_self _⟩

theorem sublist_flatMap (h : old ∈ new) : l.Sublist (l.flatMap fun a => if a = old then new else [a]) := by
  induction l with
  | nil => exact .slnil
  | cons a l ih =>
    refine .append (singleton_sublist.mpr ?_ : [a].Sublist _) ih
    by_cases ha : a = old
    · simpa [ha] using h
    · simp [ha]

theorem mem_flatMap_iff (hold : old ∈ new) (x : Arg) : (x ∈ l.flatMap fun a => if a = old then new else [a]) ↔
    x ∈ l ∨ x ∈ new ∧ old ∈ l := by
  simp only [mem_flatMap]
  constructor
  · rintro ⟨a, ha, hx⟩
    split at hx
    · rename_i h
      exact .inr ⟨hx, h ▸ ha⟩
    · exact .inl (mem_singleton.mp hx ▸ ha)
  · rintro (hx | ⟨hx, hl⟩)
    · refine ⟨x, hx, ?_⟩
      split
      · rename_i h
        exact h ▸ hold
      · exact mem_singleton_self x
    · exact ⟨old, hl, by rwa [if_pos rfl]⟩

end

section

variable {w : Arg} {rest : List Arg}

/-- What the rules by name do to the arguments after the first word. -/
structure Rewritten (cfg : Cfg) (w : Arg) (rest r : List Arg) : Prop where
  kept : rest.Sublist r
  mem : ∀ x, x ≠ "-Xclang".toList → (x ∈ r ↔ x ∈ rest ∨ x = "-E".toList ∧ SphinxRule cfg (baseName w) (w :: rest) ∨
    x = "-fno-pch-timestamp".toList ∧ ClangRule cfg (baseName w) (w :: rest))
  same : ¬SphinxRule cfg (baseName w) (w :: rest) → ¬ClangRule cfg (baseName w) (w :: rest) → r = rest
  fresh : SphinxRule cfg (baseName w) (w :: rest) ∨ ClangRule cfg (baseName w) (w :: rest) →
    ∃ q n s, r = q ++ n :: s ∧ s.length ≤ rest.length ∧ n ∉ w :: rest ∧ '/' ∉ n

theorem not_clang_of_sphinx (h : name = "sphinx-build".toList) : ¬"clang".toList <+: name := h ▸ by decide

theorem Rewritten.sphinx (h : SphinxRule cfg (baseName w) (w :: rest)) (k : Nat) :
    Rewritten cfg w rest (rest.take k ++ "-E".toList :: rest.drop k) where
  kept := by
    refine (take_append_drop k rest).symm ▸ .append ?_ (.cons _ ?_)
    all_goals simp
  mem x _ := by
    have hc : ¬ClangRule cfg (baseName w) (w :: rest) := fun hc => not_clang_of_sphinx h.1 hc.1
    have hrest : x ∈ rest ↔ x ∈ rest.take k ∨ x ∈ rest.drop k := by rw [← mem_append, take_append_drop]
    simp only [mem_append, mem_cons, hrest, h, hc, and_true, and_false, or_false]
    tauto
  same hno := absurd h hno
  fresh _ := ⟨_, _, _, rfl, by simp, h.2.2.2, by decide⟩

theorem Rewritten.clang (h : ClangRule cfg (baseName w) (w :: rest)) (hold : "-emit-pch".toList ∈ rest)
    (hm : m = toArgs ["-emit-pch"] ∨ m = toArgs ["-emit-pch", "-Xclang"]) : Rewritten cfg w rest
      (rest.flatMap fun a => if a = "-emit-pch".toList then m ++ ["-fno-pch-timestamp".toList] else [a]) := by
  have hs : ¬SphinxRule cfg (baseName w) (w :: rest) := fun hs => not_clang_of_sphinx hs.1 h.1
  have hin : "-emit-pch".toList ∈ m := by rcases hm with rfl | rfl <;> decide
  refine ⟨sublist_flatMap (mem_append_left _ hin), fun x hx => ?_, fun _ hno => absurd h hno, fun _ => ?_⟩
  · rw [mem_flatMap_iff (mem_append_left _ hin)]
    simp only [h, hs, hold, and_true, and_false, false_or]
    rcases hm with rfl | rfl <;> simp [toArgs] <;> grind
  · obtain ⟨q, s, heq, hlt⟩ := @flatMap_ends _ "-fno-pch-timestamp".toList m _ hold
    exact ⟨q, _, s, heq, hlt.le, h.2.2.1, by decide⟩

theorem Rewritten.refl (hs : ¬SphinxRule cfg (baseName w) (w :: rest)) (hc : ¬ClangRule cfg (baseName w) (w :: rest)) :
    Rewritten cfg w rest rest :=
  ⟨.refl _, fun x _ => by simp [hs, hc], fun _ _ => rfl, fun h => (h.elim hs hc).elim⟩

theorem byName_spec (h : byName cfg (w :: rest) = some r) : ∃ r', r = w :: r' ∧ Rewritten cfg w rest r' := by
  simp only [byName] at h
  split at h
  · next hs =>
    have hc : ¬ClangRule cfg (baseName w) (w :: rest) := fun hc => not_clang_of_sphinx hs.1 hc.1
    simp only [addArgument] at h
    split_ifs at h with hn hE hM
    · exact ⟨_, (Option.some.inj h).symm, .refl (fun h => h.2.2.2 hE) hc⟩
    · exact ⟨_, (Option.some.inj h).symm, .sphinx ⟨hs.1, hn.2, hs.2, hE⟩ 4⟩
    · exact ⟨_, (Option.some.inj h).symm, .sphinx ⟨hs.1, hn.2, hs.2, hE⟩ 0⟩
    · exact ⟨_, (Option.some.inj h).symm, .refl (fun h => hn ⟨h.1, h.2.1⟩) hc⟩
  next hs =>
  have hs : ¬SphinxRule cfg (baseName w) (w :: rest) := fun h => hs ⟨h.1, h.2.2.1⟩
  split at h
  · next hc =>
    have hw : w ≠ "-emit-pch".toList := by
      rintro rfl
      exact absurd hc.1 (by decide)
    rw [replaceArgument] at h
    split at h
    · next hn =>
      rw [flatMap_cons, if_neg hw] at h
      obtain rfl := Option.some.inj h
      by_cases hold : "-emit-pch".toList ∈ rest
      · have hrule : ClangRule cfg (baseName w) (w :: rest) := ⟨hc.1, hn.2, hc.2, mem_cons_of_mem w hold⟩
        refine ⟨_, rfl, ?_⟩
        split
        · exact .clang (m := toArgs ["-emit-pch"]) hrule hold (.inl rfl)
        · exact .clang (m := toArgs ["-emit-pch", "-Xclang"]) hrule hold (.inr rfl)
      · refine ⟨rest, by rw [flatMap_absent hold, singleton_append], .refl hs fun h => ?_⟩
        exact hold ((mem_cons.mp h.2.2.2).resolve_left (Ne.symm hw))
    · next hn => exact ⟨rest, (Option.some.inj h).symm, .refl hs fun h => hn ⟨rfl, h.2.1⟩⟩
  · next hc => exact ⟨rest, (Option.some.inj h).symm, .refl hs fun h => hc ⟨h.1, h.2.2.1⟩⟩

end

/-- "-E" is to be put after the three parameters of "-M", that are not there. -/
def Short (cfg : Cfg) (args : List Arg) : Prop :=
  SphinxRule cfg (commandName args) args ∧ "-M".toList ∈ args ∧ args.length < 5

theorem byName_none : byName cfg args = none ↔ Short cfg args := by
  cases args with
  | nil => simp [byName, Short]
  | cons w rest =>
    simp only [Short, SphinxRule, commandName, byName, addArgument]
    split_ifs
    all_goals grind

/-- A command is left alone by name exactly if no rule is for it. -/
theorem byName_same_iff : byName cfg args = some args ↔
    ¬SphinxRule cfg (commandName args) args ∧ ¬ClangRule cfg (commandName args) args := by
  cases args with
  | nil => exact iff_of_true rfl ⟨fun h => absurd h.1 (by decide), fun h => absurd h.1 (by decide)⟩
  | cons w rest =>
    constructor
    · intro h
      obtain ⟨_, ⟨⟩, hr⟩ := byName_spec h
      refine not_or.mp fun hrule => ?_
      obtain ⟨q, n, s, heq, -, hn, -⟩ := hr.fresh hrule
      exact hn (heq ▸ mem_cons_of_mem w (mem_append_right q (mem_cons_self ..)))
    · rintro ⟨hs, hc⟩
      cases h : byName cfg (w :: rest) with
      | none => exact absurd (byName_none.mp h).1 hs
      | some r =>
        obtain ⟨r', rfl, hr⟩ := byName_spec h
        rw [hr.same hs hc]

theorem byName_kept (h : byName cfg args = some a) :
    args.Sublist a ∧ (withPath executable args).Sublist (withPath executable a) := by
  cases args with
  | nil => exact Option.some.inj h ▸ ⟨.slnil, .slnil⟩
  | cons w rest =>
    obtain ⟨r, rfl, hr⟩ := byName_spec h
    exact ⟨hr.kept.cons_cons _, hr.kept.cons_cons _⟩

/-- The rules that find something to insert the second time, whatever the first word and the name they go by now,
are those that were not applied the first time. -/
theorem Rewritten.again (h : Rewritten cfg w rest r) (name v : Arg) :
    (SphinxRule cfg name (v :: r) ↔ SphinxRule cfg name (v :: rest) ∧ ¬SphinxRule cfg (baseName w) (w :: rest)) ∧
    (ClangRule cfg name (v :: r) ↔ ClangRule cfg name (v :: rest) ∧ ¬ClangRule cfg (baseName w) (w :: rest)) := by
  have hkeep : ∀ x, x ≠ "-Xclang".toList → x ≠ "-E".toList → x ≠ "-fno-pch-timestamp".toList →
      (x ∈ v :: r ↔ x ∈ v :: rest) := fun x hx h1 h2 => by
    rw [mem_cons, h.mem x hx, mem_cons]
    simp only [h1, h2, false_and, or_false]
  have hE : "-E".toList ∈ v :: r ↔ "-E".toList ∈ v :: rest ∨ SphinxRule cfg (baseName w) (w :: rest) := by
    have hne : "-E".toList ≠ "-fno-pch-timestamp".toList := by decide
    rw [mem_cons, h.mem _ (by decide), mem_cons]
    simp only [hne, false_and, or_false, true_and, or_assoc]
  have hno : "-fno-pch-timestamp".toList ∈ v :: r ↔
      "-fno-pch-timestamp".toList ∈ v :: rest ∨ ClangRule cfg (baseName w) (w :: rest) := by
    have hne : "-fno-pch-timestamp".toList ≠ "-E".toList := by decide
    rw [mem_cons, h.mem _ (by decide), mem_cons]
    simp only [hne, false_and, false_or, true_and, or_assoc]
  have hfresh := hkeep "--fresh-env".toList (by decide) (by decide) (by decide)
  have hemit := hkeep "-emit-pch".toList (by decide) (by decide) (by decide)
  constructor
  · show _ ∧ _ ∧ _ ∧ _ ↔ (_ ∧ _ ∧ _ ∧ _) ∧ _
    rw [hfresh, hE, not_or]
    simp only [and_assoc]
  · show _ ∧ _ ∧ _ ∧ _ ↔ (_ ∧ _ ∧ _ ∧ _) ∧ _
    rw [hno, hemit, not_or]
    simp only [and_assoc, and_comm (b := "-emit-pch".toList ∈ v :: rest)]

theorem byName_settled (h : byName cfg args = some a) : byName cfg a = some a := by
  cases args with
  | nil => exact Option.some.inj h ▸ rfl
  | cons w rest =>
    obtain ⟨r, rfl, hr⟩ := byName_spec h
    obtain ⟨hs, hc⟩ := hr.again (baseName w) w
    exact byName_same_iff.mpr ⟨fun h => (hs.mp h).2 (hs.mp h).1, fun h => (hc.mp h).2 (hc.mp h).1⟩

/-- The emulator and its option are none of the arguments that matter. -/
theorem emulated_rules (l : List Arg) :
    (SphinxRule cfg (baseName qemu) (qemu :: "-libc-syscalls".toList :: l) ↔ SphinxRule cfg (baseName qemu) l) ∧
    (ClangRule cfg (baseName qemu) (qemu :: "-libc-syscalls".toList :: l) ↔ ClangRule cfg (baseName qemu) l) := by
  have hmem : ∀ x, x ≠ "-libc-syscalls".toList → x ≠ qemu → (x ∈ qemu :: "-libc-syscalls".toList :: l ↔ x ∈ l) :=
    fun x h1 h2 => by simp only [mem_cons, h1, h2, false_or]
  have hne : ∀ {x : Arg} {P : Arg → Prop}, ¬P (baseName x) → P (baseName qemu) → x ≠ qemu := by
    rintro x P hx hq rfl
    exact hx hq
  constructor
  · refine and_congr_right fun hq => and_congr_right fun _ => ?_
    rw [hmem _ (by decide) (hne (P := (· = _)) (by decide) hq), hmem _ (by decide) (hne (P := (· = _)) (by decide) hq)]
  · refine and_congr_right fun hq => and_congr_right fun _ => ?_
    rw [hmem _ (by decide) (hne (P := (_ <+: ·)) (by decide) hq), hmem _ (by decide) (hne (P := (_ <+: ·)) (by decide) hq)]

theorem byName_emulated_iff (h : byName cfg args = some a) :
    byName cfg (emulated qemu executable a) = some (emulated qemu executable a) ↔
      (SphinxRule cfg (baseName qemu) (withPath executable args) → SphinxRule cfg (commandName args) args) ∧
      (ClangRule cfg (baseName qemu) (withPath executable args) → ClangRule cfg (commandName args) args) := by
  rw [byName_same_iff]
  obtain ⟨hs, hc⟩ := @emulated_rules cfg qemu (withPath executable a)
  show ¬SphinxRule cfg (baseName qemu) _ ∧ ¬ClangRule cfg (baseName qemu) _ ↔ _
  rw [emulated, hs, hc]
  cases args with
  | nil =>
    obtain rfl := Option.some.inj h
    have hname : ∀ l, ¬SphinxRule cfg (commandName []) l ∧ ¬ClangRule cfg (commandName []) l := fun l =>
      ⟨fun h => absurd h.1 (by decide), fun h => absurd h.1 (by decide)⟩
    simp [hname]
  | cons w rest =>
    obtain ⟨r, rfl, hr⟩ := byName_spec h
    obtain ⟨hs, hc⟩ := hr.again (baseName qemu) (if '/' ∈ w then w else executable)
    simp only [withPath, hs, hc, not_and_not_right]
    rfl

/-- A list is rewritten in its bounds, kept in its order and left alone the second time, if and only if "-E" can be
put where "-M" wants it and the emulator is neither static nor called like a tool that gets an argument, unless the
command itself got it. -/
theorem rewriting_is_safe_iff :
    (∃ e r, maybeRewrite cfg executable args = some (e, r) ∧
      (if (cfg.emulator executable).isSome then withPath executable args else args).Sublist r ∧
      maybeRewrite cfg e r = some (e, r)) ↔
    ¬Short cfg args ∧ ∀ qemu, cfg.emulator executable = some qemu → cfg.emulator qemu = none ∧
      (SphinxRule cfg (baseName qemu) (withPath executable args) → SphinxRule cfg (commandName args) args) ∧
      (ClangRule cfg (baseName qemu) (withPath executable args) → ClangRule cfg (commandName args) args) := by
  rw [← byName_none]
  cases hb : byName cfg args with
  | none => simp [maybeRewrite, hb]
  | some a =>
    obtain ⟨hkept, hpath⟩ := @byName_kept cfg executable _ _ hb
    cases he : cfg.emulator executable with
    | none => simp [maybeRewrite, hb, he, hkept, byName_settled hb]
    | some qemu =>
      have hsub : (withPath executable args).Sublist (emulated qemu executable a) := (hpath.cons _).cons _
      simp only [← byName_emulated_iff hb, Option.some.injEq, forall_eq', reduceCtorEq, not_false_eq_true, true_and]
      constructor
      · rintro ⟨e, r, hr, -, hsame⟩
        obtain ⟨rfl, rfl⟩ : qemu = e ∧ emulated qemu executable a = r := by simpa [maybeRewrite, hb, he] using hr
        obtain ⟨a', ha', hsame⟩ := Option.map_eq_some_iff.mp hsame
        have hle := (@byName_kept cfg qemu _ _ ha').2.length_le
        cases hq : cfg.emulator qemu with
        | none =>
          obtain rfl : a' = emulated qemu executable a := by simpa [hq] using hsame
          exact ⟨rfl, ha'⟩
        | some q =>
          have hlen := congrArg (·.2.length) hsame
          simp only [hq, emulated, withPath, length_cons] at hlen hle
          omega
      · rintro ⟨hq, hsame⟩
        exact ⟨qemu, emulated qemu executable a, by simp [maybeRewrite, hb, he], hsub, by simp [maybeRewrite, hsame, hq]⟩

/-- "-E" is inserted behind the end. -/
theorem a_short_list_is_left : maybeRewrite ⟨fun _ => false, none, fun _ => false⟩ "/usr/bin/sphinx-build".toList
    (toArgs ["sphinx-build", "-M", "html"]) = none := by decide

theorem a_new_argument_is_unexpected (hs : s.length < args.length)
    (hlen : args.length < (q ++ n :: s).length) (hn : n ∉ args) (hslash : '/' ∉ n) :
    argvMatchesExpectation old (q ++ n :: s) args ≠ some true := by
  obtain ⟨w, e, rfl⟩ := exists_cons_of_length_pos (Nat.zero_lt_of_lt hs)
  obtain ⟨i, x, a, heq, ha⟩ := split_at (Nat.lt_of_succ_lt hlen)
  have hi : i ≠ [] := by
    rintro rfl
    rw [heq] at hlen
    simp [ha] at hlen
  have hmem : n ∈ x :: a := by
    refine (suffix_of_suffix_length_le ⟨q, rfl⟩ ⟨i, heq.symm⟩ ?_).subset (mem_cons_self ..)
    simpa [ha, Nat.lt_succ_iff] using hs
  obtain ⟨b, hb, hiff⟩ := @matches_longer old i a e w x hi ha
  rw [heq, hb]
  rintro ⟨⟩
  obtain ⟨hx, -, hall⟩ := hiff.mp rfl
  obtain rfl | hna := mem_cons.mp hmem
  · rw [Fits] at hx
    split at hx
    · exact hn (hx ▸ mem_cons_self ..)
    · exact hslash (hx.subset (mem_cons_self ..))
  · exact hn (mem_cons_of_mem w (mem_of_mem_head? (hall n hna)))

/-- The command that is executed is what was asked for, or an emulator runs it: its name is the end of the path and
its other arguments are all the same. -/
def Recognisable (cfg : Cfg) (executable : Arg) (args : List Arg) : Prop :=
  ¬SphinxRule cfg (commandName args) args ∧ ¬ClangRule cfg (commandName args) args ∧
    ((cfg.emulator executable).isSome → ∃ w rest, args = w :: rest ∧
      ('/' ∈ w ∨ '/' :: w <:+ executable) ∧ ∀ x ∈ rest, rest.head? = some x)

/-- A command that got an argument is not recognised. -/
theorem inserted_is_unexpected (h : byName cfg args = some a) (hne : a ≠ args)
    (hr : maybeRewrite cfg executable args = some (e, r)) : argvMatchesExpectation old r args ≠ some true := by
  cases args with
  | nil => exact absurd (Option.some.inj h).symm hne
  | cons w rest =>
    obtain ⟨r', rfl, hi⟩ := byName_spec h
    have hrule : SphinxRule cfg (baseName w) (w :: rest) ∨ ClangRule cfg (baseName w) (w :: rest) := by
      by_contra hno
      rw [not_or] at hno
      exact hne (by rw [hi.same hno.1 hno.2])
    obtain ⟨q, n, s, rfl, hs, hn, hslash⟩ := hi.fresh hrule
    have hlt : rest.length < (q ++ n :: s).length := hi.kept.length_le.lt_of_ne fun h =>
      hn (mem_cons_of_mem w (hi.kept.eq_of_length h ▸ mem_append_right q (mem_cons_self ..)))
    obtain ⟨p, hp, rfl⟩ : ∃ p, q.length < p.length ∧ r = p ++ n :: s := by
      rw [maybeRewrite, h] at hr
      cases he : cfg.emulator executable with
      | none =>
        rw [he] at hr
        cases hr
        exact ⟨w :: q, Nat.lt_succ_self _, rfl⟩
      | some qemu =>
        rw [he] at hr
        cases hr
        exact ⟨emulated e executable (w :: q), by simp [emulated, withPath]; omega, rfl⟩
    refine a_new_argument_is_unexpected (Nat.lt_succ_of_le hs) ?_ hn hslash
    simp only [length_append, length_cons] at hlt ⊢
    omega

/-- The expectation that was recorded for a command accepts the rewritten command. -/
theorem rewritten_accepted_iff (old : Bool) (hr : maybeRewrite cfg executable args = some (e, r)) :
    argvMatchesExpectation old r args = some true ↔ Recognisable cfg executable args := by
  obtain ⟨a, hb, heq⟩ := Option.map_eq_some_iff.mp hr
  rw [Recognisable, ← and_assoc, ← byName_same_iff]
  by_cases ha : a = args
  · subst ha
    rw [and_iff_right hb]
    cases he : cfg.emulator executable with
    | none =>
      obtain ⟨-, rfl⟩ : executable = e ∧ a = r := by simpa [he] using heq
      simp [argvMatchesExpectation]
    | some qemu =>
      obtain ⟨-, rfl⟩ : qemu = e ∧ emulated qemu executable a = r := by simpa [he] using heq
      cases a with
      | nil => simp [emulated, argvMatchesExpectation, withPath]
      | cons w rest =>
        obtain ⟨b, hm, hiff⟩ := @matches_longer old [qemu, "-libc-syscalls".toList] rest rest w
          (if '/' ∈ w then w else executable) nofun rfl
        have hfits : Fits w (if '/' ∈ w then w else executable) ↔ '/' ∈ w ∨ '/' :: w <:+ executable := by
          by_cases hw : '/' ∈ w <;> simp [Fits, hw]
        have hacc : argvMatchesExpectation old (emulated qemu executable (w :: rest)) (w :: rest) = some true ↔
            ('/' ∈ w ∨ '/' :: w <:+ executable) ∧ ∀ x ∈ rest, rest.head? = some x := by
          rw [← hfits]
          refine (iff_of_eq (congrArg (· = some true) hm)).trans ?_
          simpa [Repeats] using hiff
        simp [hacc]
  · refine iff_of_false (inserted_is_unexpected hb ha hr) fun h => ha (Option.some.inj (hb.symm.trans h.1))

end Firebuild.CommandRewriter

/-
  Firebuild.InheritedFiles — grouping the fds a process starts with (`execed_process.cc`:
  `ExecedProcess::initialize`; `file_fd.h`: `fdcmp`).

  The fds are taken in increasing order. Each is compared with the first fd of every group so
  far, and joins the first group with the same description or starts one of its own. A null
  pointer that is followed gives `none`.

  Descriptions are compared by their addresses, which differ from run to run.
  `inherited_fds_are_grouped`: the groups are the classes of the fds by description, and the
  addresses are not to be seen in the result, so that it can be fingerprinted.
-/

import Mathlib.Order.Compare
import Mathlib.Order.Lattice
import Firebuild.Fingerprint

namespace Firebuild.InheritedFiles

open List

/-- `FileOFD`, as far as it is read here. -/
structure FileOFD where
  type : FdType
  filename : Option CString
  flags : BitVec 32

/-- `inherited_file_t` -/
structure InheritedFile extends FileOFD where
  fds : List Nat
  startOffset : Int := -1

/-- The starting process: the descriptions by address, and the address for each fd. -/
structure Starting (δ : Type) where
  ofds : δ → FileOFD
  fds : List (Option δ)

def isWrite (flags : BitVec 32) : Bool := flags &&& 3 = 1 || flags &&& 3 = 2

/-- "Assume that the file is seeked to the end." What stat64() gives is whether the file is a
    regular one, and its size. -/
def rememberOffset (stat : CString → Option (Bool × Nat)) (file : InheritedFile) : InheritedFile :=
  { file with startOffset := match file.type, file.filename.bind stat with
    | .file, some (true, size) => if isWrite file.flags then size else file.startOffset
    | _, _ => file.startOffset }

section

variable {δ : Type} [LinearOrder δ]

def fdcmp (a b : δ) : Ordering := cmp a b

theorem fdcmp_eq {a b : δ} : fdcmp a b = .eq ↔ a = b := cmp_eq_eq_iff a b

def Starting.getFd (p : Starting δ) (fd : Nat) : Option δ := p.fds[fd]?.join

def Starting.place (p : Starting δ) (fd : Nat) (d : δ) : List InheritedFile → Option (List InheritedFile)
  | [] => some [{ p.ofds d with fds := [fd] }]
  | file :: files =>
    (file.fds.head?.bind p.getFd).bind fun first =>
      if fdcmp first d = .eq then some ({ file with fds := file.fds ++ [fd] } :: files)
      else (p.place fd d files).map (file :: ·)

def Starting.inherited (p : Starting δ) : Nat → Option (List InheritedFile)
  | 0 => some []
  | fd + 1 => (p.inherited fd).bind fun files =>
    match p.getFd fd with
    | none => some files
    | some d => p.place fd d files

/-- The inherited files, and whether shortcutting is disabled because one was not found. -/
def Starting.initialize (p : Starting δ) (stat : CString → Option (Bool × Nat)) : Option (List InheritedFile × Bool) :=
  (p.inherited p.fds.length).map fun files =>
    (files.map (rememberOffset stat), files.any fun file => file.type = .file && (file.filename.bind stat).isNone)

variable (p : Starting δ) {n fd : Nat} {d : δ} {ds : List δ}

def Starting.fdsOf (n : Nat) (d : δ) : List Nat := (range n).filter (p.getFd · = some d)

def Starting.file (n : Nat) (d : δ) : InheritedFile := { p.ofds d with fds := p.fdsOf n d }

/-- The descriptions of the fds below `n`, in the order of their lowest fds. -/
structure Descriptions (n : Nat) (ds : List δ) : Prop where
  mem : ∀ d, d ∈ ds ↔ ∃ fd < n, p.getFd fd = some d
  nodup : ds.Nodup
  ordered : ds.Pairwise fun d e => ∃ a < n, p.getFd a = some d ∧ ∀ b < n, p.getFd b = some e → a < b

theorem mem_fdsOf : fd ∈ p.fdsOf n d ↔ fd < n ∧ p.getFd fd = some d := by
  simp [Starting.fdsOf]

theorem fdsOf_succ : p.fdsOf (n + 1) d = p.fdsOf n d ++ if p.getFd n = some d then [n] else [] := by
  by_cases h : p.getFd n = some d <;> simp [Starting.fdsOf, range_succ, h]

theorem file_succ_of_ne (h : p.getFd n ≠ some d) : p.file (n + 1) d = p.file n d := by
  rw [Starting.file, fdsOf_succ, if_neg h, append_nil, Starting.file]

omit [LinearOrder δ] in
theorem Descriptions.later {p : Starting δ} (h : Descriptions p n ds) :
    ds.Pairwise fun d e => ∃ a < n + 1, p.getFd a = some d ∧ ∀ b < n + 1, p.getFd b = some e → a < b :=
  h.ordered.imp fun ⟨a, ha, hd, hall⟩ => ⟨a, by omega, hd, by grind⟩

omit [LinearOrder δ] in
theorem Descriptions.same {p : Starting δ} (h : Descriptions p n ds) (hn : ∀ d, p.getFd n = some d → d ∈ ds) :
    Descriptions p (n + 1) ds :=
  ⟨by grind [h.mem], h.nodup, h.later⟩

theorem Descriptions.new {p : Starting δ} (h : Descriptions p n ds) (hn : p.getFd n = some d) (hd : d ∉ ds) :
    Descriptions p (n + 1) (ds ++ [d]) := by
  have hmem := h.mem
  refine ⟨by grind, by grind [h.nodup], pairwise_append.mpr ⟨h.later, pairwise_singleton _ _, fun e he d' hd' => ?_⟩⟩
  obtain ⟨a, ha, hae⟩ := (hmem e).mp he
  exact ⟨a, by omega, hae, by grind⟩

/-- The fd is put to those of its description, or to the end. -/
theorem place_eq (hds : ∀ e ∈ ds, ∃ fd < n, p.getFd fd = some e) (hnd : ds.Nodup) (hn : p.getFd n = some d) :
    p.place n d (ds.map (p.file n)) =
      some (ds.map (p.file (n + 1)) ++ if d ∈ ds then [] else [{ p.ofds d with fds := [n] }]) := by
  induction ds with
  | nil => rfl
  | cons e ds ih =>
    obtain ⟨he, hnd⟩ := nodup_cons.mp hnd
    have hfirst : (p.file n e).fds.head?.bind p.getFd = some e := by
      obtain ⟨fd, hfd⟩ := hds e mem_cons_self
      have hne : p.fdsOf n e ≠ [] := ne_nil_of_mem ((mem_fdsOf p).mpr hfd)
      rw [show (p.file n e).fds.head? = some _ from head?_eq_some_head hne]
      exact ((mem_fdsOf p).mp (head_mem hne)).2
    rw [map_cons, Starting.place, hfirst, Option.bind_some]
    by_cases hed : e = d
    · subst hed
      have hrest : ds.map (p.file (n + 1)) = ds.map (p.file n) := map_congr_left fun e' he' =>
        file_succ_of_ne p fun h => he (Option.some.inj (hn.symm.trans h) ▸ he')
      rw [if_pos (fdcmp_eq.mpr rfl), if_pos mem_cons_self, map_cons, hrest]
      simp [Starting.file, fdsOf_succ, hn]
    · have hsame : p.file (n + 1) e = p.file n e :=
        file_succ_of_ne p fun h => hed (Option.some.inj (h.symm.trans hn))
      rw [if_neg fun h => hed (fdcmp_eq.mp h), ih (fun e' h => hds e' (mem_cons_of_mem _ h)) hnd, map_cons, hsame]
      simp [Ne.symm hed]

theorem inherited_eq (n : Nat) : ∃ ds, Descriptions p n ds ∧ p.inherited n = some (ds.map (p.file n)) := by
  induction n with
  | zero => exact ⟨[], ⟨by simp, nodup_nil, .nil⟩, rfl⟩
  | succ n ih =>
    obtain ⟨ds, h, heq⟩ := ih
    rw [Starting.inherited, heq, Option.bind_some]
    cases hn : p.getFd n with
    | none =>
      refine ⟨ds, h.same (by rw [hn]; nofun), congrArg some (map_congr_left fun d _ => (file_succ_of_ne p ?_).symm)⟩
      rw [hn]
      nofun
    | some d =>
      simp only [place_eq p (fun e => (h.mem e).mp) h.nodup hn]
      by_cases hd : d ∈ ds
      · exact ⟨ds, h.same (by rw [hn]; rintro _ ⟨⟩; exact hd), by simp [hd]⟩
      · have hnone : p.fdsOf n d = [] := eq_nil_iff_forall_not_mem.mpr fun fd hfd =>
          hd ((h.mem d).mpr ⟨fd, (mem_fdsOf p).mp hfd⟩)
        exact ⟨_, h.new hn hd, by simp [hd, Starting.file, fdsOf_succ, hn, hnone]⟩

/-- The groups are the classes of the open fds by description. Each is increasing, and its lowest fd
    is below all fds of the next ones. -/
structure Grouping (p : Starting δ) (groups : List (List Nat)) : Prop where
  covers : ∀ fd, (∃ g ∈ groups, fd ∈ g) ↔ (p.getFd fd).isSome
  nonempty : [] ∉ groups
  disjoint : groups.Pairwise Disjoint
  together : ∀ a b, (∃ g ∈ groups, a ∈ g ∧ b ∈ g) ↔ ∃ d, p.getFd a = some d ∧ p.getFd b = some d
  increasing : ∀ g ∈ groups, g.Pairwise (· < ·)
  byLowest : groups.Pairwise fun g h => ∃ a ∈ g, ∀ b ∈ h, a < b

theorem Descriptions.grouping {p : Starting δ} (h : Descriptions p p.fds.length ds) :
    Grouping p (ds.map (p.fdsOf p.fds.length)) := by
  have hlt : ∀ {fd d}, p.getFd fd = some d → fd < p.fds.length := by
    intro fd d hfd
    by_contra hge
    rw [Starting.getFd, getElem?_eq_none (by omega)] at hfd
    cases hfd
  have hin : ∀ {fd d}, fd ∈ p.fdsOf p.fds.length d ↔ p.getFd fd = some d :=
    (mem_fdsOf p).trans ⟨And.right, fun h => ⟨hlt h, h⟩⟩
  have hds : ∀ {fd d}, p.getFd fd = some d → d ∈ ds := fun hfd => (h.mem _).mpr ⟨_, hlt hfd, hfd⟩
  constructor
  · intro fd
    simp only [mem_map, exists_exists_and_eq_and, hin, Option.isSome_iff_exists]
    exact ⟨fun ⟨d, _, h⟩ => ⟨d, h⟩, fun ⟨d, h⟩ => ⟨d, hds h, h⟩⟩
  · intro hnil
    obtain ⟨d, hd, hnil⟩ := mem_map.mp hnil
    obtain ⟨fd, hfd⟩ := (h.mem d).mp hd
    exact ne_nil_of_mem ((mem_fdsOf p).mpr hfd) hnil
  · refine pairwise_map.mpr (h.nodup.imp fun hne fd hd he => hne ?_)
    exact Option.some.inj ((hin.mp hd).symm.trans (hin.mp he))
  · intro a b
    simp only [mem_map, exists_exists_and_eq_and, hin]
    exact ⟨fun ⟨d, _, h⟩ => ⟨d, h⟩, fun ⟨d, h⟩ => ⟨d, hds h.1, h⟩⟩
  · intro g hg
    obtain ⟨d, -, rfl⟩ := mem_map.mp hg
    exact pairwise_lt_range.filter _
  · refine pairwise_map.mpr (h.ordered.imp fun ⟨a, ha, had, hall⟩ => ⟨a, hin.mpr had, fun b hb => ?_⟩)
    exact hall b (hlt (hin.mp hb)) (hin.mp hb)

end

section

variable {δ ε : Type} [LinearOrder δ] [LinearOrder ε] {p : Starting δ} {q : Starting ε} {ρ : δ → ε}

/-- The same process with its descriptions at other addresses. -/
structure Renamed (ρ : δ → ε) (p : Starting δ) (q : Starting ε) : Prop where
  injective : Function.Injective ρ
  ofds : ∀ d, q.ofds (ρ d) = p.ofds d
  fds : q.fds = p.fds.map (Option.map ρ)

omit [LinearOrder δ] [LinearOrder ε] in
theorem Renamed.getFd (h : Renamed ρ p q) (fd : Nat) : q.getFd fd = (p.getFd fd).map ρ := by
  rw [Starting.getFd, Starting.getFd, h.fds, getElem?_map]
  cases p.fds[fd]? <;> rfl

theorem Renamed.place (h : Renamed ρ p q) (fd : Nat) (d : δ) (files : List InheritedFile) :
    q.place fd (ρ d) files = p.place fd d files := by
  induction files with
  | nil => simp only [Starting.place, h.ofds]
  | cons file files ih =>
    have hfirst : file.fds.head?.bind q.getFd = (file.fds.head?.bind p.getFd).map ρ := by
      rw [Option.map_bind]
      exact congrArg _ (funext h.getFd)
    rw [Starting.place, hfirst, Option.bind_map]
    congr 1
    funext first
    simp only [Function.comp, fdcmp_eq, h.injective.eq_iff, ih]

theorem Renamed.inherited (h : Renamed ρ p q) (n : Nat) : q.inherited n = p.inherited n := by
  induction n with
  | zero => rfl
  | succ n ih =>
    rw [Starting.inherited, Starting.inherited, ih, h.getFd]
    cases p.getFd n with
    | none => rfl
    | some d => simp only [Option.map_some, h.place]

end

/-- The inherited files are the classes of the open fds by description, in order, and do not depend
    on where the descriptions are. -/
theorem inherited_fds_are_grouped {δ : Type} [LinearOrder δ] (p : Starting δ) (stat : CString → Option (Bool × Nat)) :
    (∃ files disabled, p.initialize stat = some (files, disabled) ∧ Grouping p (files.map InheritedFile.fds)) ∧
      ∀ (ε : Type) [LinearOrder ε] (ρ : δ → ε) (q : Starting ε), Renamed ρ p q → q.initialize stat = p.initialize stat := by
  constructor
  · obtain ⟨ds, h, heq⟩ := inherited_eq p p.fds.length
    refine ⟨_, _, by unfold Starting.initialize; rw [heq]; rfl, ?_⟩
    rw [map_map, map_map]
    exact h.grouping
  · intro ε _ ρ q h
    unfold Starting.initialize
    rw [h.inherited, h.fds, length_map]

end Firebuild.InheritedFiles

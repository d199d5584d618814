/-
  Firebuild.Locations — `is_path_at_locations` (`firebuild_common.c`) in a sorted array.

  strcmp() and memcmp() compare like the order of the lists. A location is trimmed of its
  slashes, but it is the untrimmed ones that are sorted; and the lookup gives up at the first
  location that is above the path.

  Proved: `found_iff_at_a_location`, for locations that do not end in two slashes. One for the
  path is a prefix of the path with a slash behind it, and so below the one where the lookup
  gives up (`at_later_location`); "/a//" is not, and comes after "/a/!".
-/

import Mathlib.Data.List.DropRight
import Firebuild.SharedLibs

namespace Firebuild.Locations

open List SharedLibs

def trimSlashes (location : Bytes) : Bytes := location.rdropWhile (· = slash)

/-- Checks if a path semantically begins with one of the given sorted subpaths. -/
def isPathAtLocations (path : Bytes) : List Bytes → Bool
  | [] => false
  | location :: locations =>
    let trimmed := trimSlashes location
    if path.length < trimmed.length then isPathAtLocations path locations
    else if path[trimmed.length]? ≠ some slash ∧ trimmed.length < path.length then isPathAtLocations path locations
    else if trimmed < path.take trimmed.length then isPathAtLocations path locations
    else if path.take trimmed.length < trimmed then false
    else if path.length = trimmed.length then true
    else if path[trimmed.length]? = some slash then true
    else isPathAtLocations path locations

/-- The path is the location, or something in it. -/
def At (path location : Bytes) : Prop := path = trimSlashes location ∨ trimSlashes location ++ [slash] <+: path

variable {path location location' : Bytes} {locations : List Bytes}

theorem append_lt_append {p t : Bytes} (h : p < t) (hlen : p.length = t.length) (x y : Bytes) : p ++ x < t ++ y := by
  induction p generalizing t with
  | nil =>
    rw [length_eq_zero_iff.mp hlen.symm] at h
    exact absurd h (List.lt_irrefl [])
  | cons a p ih =>
    cases t with
    | nil => cases hlen
    | cons b t =>
      rw [cons_append, cons_append, cons_lt_cons_iff]
      rcases cons_lt_cons_iff.mp h with hab | ⟨hab, hpt⟩
      · exact .inl hab
      · exact .inr ⟨hab, ih hpt (Nat.succ.inj hlen)⟩

/-- At most one slash is trimmed. -/
theorem prefix_trimSlashes (h : ¬[slash, slash] <:+ location) : location <+: trimSlashes location ++ [slash] := by
  rcases eq_nil_or_concat' location with rfl | ⟨front, c, rfl⟩
  · exact nil_prefix
  rw [trimSlashes, rdropWhile_concat]
  split
  · rename_i hc
    have hfront : front.rdropWhile (· = slash) = front := rdropWhile_eq_self_iff.mpr fun hne hlast => by
      refine h ⟨front.dropLast, ?_⟩
      rw [← dropLast_append_getLast hne, of_decide_eq_true hc, of_decide_eq_true hlast]
      simp
    rw [hfront, of_decide_eq_true hc]
  · exact prefix_append _ _

theorem At.isPrefix (hat : At path location) (h : ¬[slash, slash] <:+ location) : location <+: path ++ [slash] := by
  have hlocation := prefix_trimSlashes h
  rcases hat with rfl | hat
  · exact hlocation
  · exact (hlocation.trans hat).trans (prefix_append path [slash])

/-- Where the lookup gives up no later location is one for the path. -/
theorem at_later_location (hlen : (trimSlashes location).length ≤ path.length)
    (hlt : path.take (trimSlashes location).length < trimSlashes location) (hle : location ≤ location')
    (h : ¬[slash, slash] <:+ location') : ¬At path location' := by
  intro hat
  obtain ⟨slashes, hslashes⟩ : trimSlashes location <+: location := rdropWhile_prefix _ _
  have hbelow := append_lt_append hlt (length_take_of_le hlen) (path.drop (trimSlashes location).length ++ [slash]) slashes
  rw [← append_assoc, take_append_drop, hslashes] at hbelow
  exact hle (List.lt_of_le_of_lt (hat.isPrefix h).le hbelow)

/-- What the comparisons of one location ask for. -/
theorem at_iff : At path location ↔ (trimSlashes location).length ≤ path.length ∧
    path.take (trimSlashes location).length = trimSlashes location ∧
    (path.length = (trimSlashes location).length ∨ path[(trimSlashes location).length]? = some slash) := by
  constructor
  · rintro (rfl | ⟨rest, rfl⟩)
    · exact ⟨Nat.le_refl _, take_length, .inl rfl⟩
    · simp
  · rintro ⟨-, htake, hlen | hslash⟩
    · left
      rw [← htake, take_of_length_le (Nat.le_of_eq hlen)]
    · right
      have hnext := take_prefix ((trimSlashes location).length + 1) path
      rwa [take_add_one, htake, hslash] at hnext

/-- The lookup in a sorted array whose entries have at most one trailing slash finds exactly the
    paths at one of the locations. -/
theorem found_iff_at_a_location (hsorted : locations.Pairwise (· ≤ ·))
    (hslashes : ∀ location ∈ locations, ¬[slash, slash] <:+ location) :
    isPathAtLocations path locations = true ↔ ∃ location ∈ locations, At path location := by
  induction locations with
  | nil => simp [isPathAtLocations]
  | cons location locations ih =>
    rw [pairwise_cons] at hsorted
    rw [forall_mem_cons] at hslashes
    have hcontinue (hnot : ¬At path location) : isPathAtLocations path locations = true ↔
        At path location ∨ ∃ location ∈ locations, At path location := by
      rw [or_iff_right hnot]
      exact ih hsorted.2 hslashes.2
    rw [isPathAtLocations, exists_mem_cons_iff]
    split_ifs with hshort hinside hbelow habove hsame hslash
    · exact hcontinue fun hat => absurd (at_iff.mp hat).1 (Nat.not_le.mpr hshort)
    · refine hcontinue fun hat => ?_
      rcases (at_iff.mp hat).2.2 with hlen | hslash
      · exact absurd hlen (Nat.ne_of_gt hinside.2)
      · exact hinside.1 hslash
    · refine hcontinue fun hat => List.lt_irrefl (trimSlashes location) ?_
      rwa [(at_iff.mp hat).2.1] at hbelow
    · refine iff_of_false id ?_
      rintro (hat | ⟨location', hmem, hat⟩)
      · rw [(at_iff.mp hat).2.1] at habove
        exact List.lt_irrefl _ habove
      · exact at_later_location (Nat.not_lt.mp hshort) habove (hsorted.1 location' hmem) (hslashes.2 location' hmem) hat
    all_goals have htake := List.le_antisymm hbelow habove
    · exact iff_of_true rfl (.inl (at_iff.mpr ⟨Nat.not_lt.mp hshort, htake, .inl hsame⟩))
    · exact iff_of_true rfl (.inl (at_iff.mpr ⟨Nat.not_lt.mp hshort, htake, .inr hslash⟩))
    · refine hcontinue fun hat => ?_
      rcases (at_iff.mp hat).2.2 with hlen | hat
      · exact hsame hlen
      · exact hslash hat

theorem found_in_usr : isPathAtLocations (ascii "/usr/lib") [ascii "/opt", ascii "/usr/"] = true :=
  (found_iff_at_a_location (by decide) (by decide)).mpr ⟨ascii "/usr/", by decide, .inr (by decide)⟩

end Firebuild.Locations

import Mathlib.Data.Finmap
import Mathlib.Data.List.Sort
import Mathlib.Order.Lattice

/-!
# Placed — a map whose values have places of their own

What an ordered index is for: a finite map from ids to values, where every value has a place in some
order and no two ids have values in the same place.  The map can be listed in the order of the
places, and in one way only; so an implementation that keeps its entries in order cannot list
anything else.
-/

namespace Secondary
namespace Lib

universe u v w

variable {ι : Type u} {κ : Type v} {ω : Type w} [DecidableEq ι]

/-- A finite map in which no two ids share a place. -/
structure Placed (ι : Type u) (κ : Type v) [DecidableEq ι] (place : κ → ω) where
  map : Finmap fun _ : ι => κ
  apart : ∀ {i j k l}, map.lookup i = some k → map.lookup j = some l → place k = place l → i = j

namespace Placed

variable {place : κ → ω} {m : Placed ι κ place} {i j : ι} {k l : κ}

/-! ## Updates -/

def empty : Placed ι κ place where
  map := ∅
  apart h := by simp at h

/-- Another id has a value in the same place. -/
def Taken (m : Placed ι κ place) (i : ι) (k : κ) : Prop :=
  ∃ j l, j ≠ i ∧ m.map.lookup j = some l ∧ place l = place k

def erase (m : Placed ι κ place) (i : ι) : Placed ι κ place where
  map := m.map.erase i
  apart {i' j' k l} hi hj hplace := by
    have hkept : ∀ {j l}, (m.map.erase i).lookup j = some l → m.map.lookup j = some l := by
      intro j l h
      by_cases hji : j = i
      · subst hji
        simp at h
      · rwa [Finmap.lookup_erase_ne hji] at h
    exact m.apart (hkept hi) (hkept hj) hplace

/-- Put `k` under `i`, where no other id is in its place. -/
def insert (m : Placed ι κ place) (i : ι) (k : κ) (hfree : ¬m.Taken i k) : Placed ι κ place where
  map := m.map.insert i k
  apart {j₁ j₂ k₁ k₂} h₁ h₂ hplace := by
    by_cases hj₁ : j₁ = i
    · by_cases hj₂ : j₂ = i
      · exact hj₁.trans hj₂.symm
      · -- An old entry in the place of the new one.
        subst hj₁
        rw [Finmap.lookup_insert, Option.some.injEq] at h₁
        rw [Finmap.lookup_insert_of_ne _ hj₂] at h₂
        exact absurd ⟨j₂, k₂, hj₂, h₂, by rw [h₁, hplace]⟩ hfree
    · rw [Finmap.lookup_insert_of_ne _ hj₁] at h₁
      by_cases hj₂ : j₂ = i
      · subst hj₂
        rw [Finmap.lookup_insert, Option.some.injEq] at h₂
        exact absurd ⟨j₁, k₁, hj₁, h₁, by rw [hplace, h₂]⟩ hfree
      · rw [Finmap.lookup_insert_of_ne _ hj₂] at h₂
        exact m.apart h₁ h₂ hplace

/-! ## Listing -/

section Listing

variable [LinearOrder ω]

/-- The entries in the order of their places. -/
noncomputable def listing (m : Placed ι κ place) : List (ι × κ) :=
  (m.map.entries.toList.map fun e => (e.1, e.2)).mergeSort fun a b =>
    decide (place a.2 ≤ place b.2)

theorem mem_listing : (i, k) ∈ m.listing ↔ m.map.lookup i = some k := by
  rw [listing, List.mem_mergeSort, List.mem_map, Finmap.lookup_eq_some_iff]
  constructor
  · rintro ⟨⟨j, l⟩, hmem, heq⟩
    cases heq
    exact Multiset.mem_toList.1 hmem
  · intro hmem
    exact ⟨⟨i, k⟩, Multiset.mem_toList.2 hmem, rfl⟩

theorem nodup_listing (m : Placed ι κ place) : m.listing.Nodup := by
  have hentries : m.map.entries.toList.Nodup := by
    rw [← Multiset.coe_nodup, Multiset.coe_toList]
    exact m.map.nodup_entries
  refine ((List.mergeSort_perm _ _).nodup_iff).2 (hentries.map ?_)
  rintro ⟨i, k⟩ ⟨j, l⟩ heq
  cases heq
  rfl

theorem listing_lt (m : Placed ι κ place) :
    m.listing.Pairwise fun a b => place a.2 < place b.2 := by
  have hle : m.listing.Pairwise fun a b => decide (place a.2 ≤ place b.2) = true := by
    apply List.pairwise_mergeSort
    · intro a b c hab hbc
      exact decide_eq_true (le_trans (of_decide_eq_true hab) (of_decide_eq_true hbc))
    · intro a b
      simpa using le_total (place a.2) (place b.2)
  refine (hle.and m.nodup_listing).imp_of_mem ?_
  rintro ⟨i, k⟩ ⟨j, l⟩ hi hj ⟨hplace, hne⟩
  -- Entries in one place would be entries of one id.
  refine lt_of_le_of_ne (of_decide_eq_true hplace) fun heq => hne ?_
  have hi := mem_listing.1 hi
  have hj := mem_listing.1 hj
  obtain rfl := m.apart hi hj heq
  rw [hi, Option.some.injEq] at hj
  rw [hj]

/-- A list of the ids with their places, in order, is the listing. -/
theorem listing_unique {l : List (ι × ω)} (hsorted : l.Pairwise fun a b => a.2 < b.2)
    (hmem : ∀ i x, (i, x) ∈ l ↔ ∃ k, m.map.lookup i = some k ∧ place k = x) :
    m.listing.map (fun e => (e.1, place e.2)) = l := by
  have hanti : Std.Antisymm fun a b : ι × ω => a.2 < b.2 :=
    ⟨fun a b hab hba => absurd hab (lt_asymm hba)⟩
  have hirrefl : Std.Irrefl fun a b : ι × ω => a.2 < b.2 := ⟨fun a => lt_irrefl a.2⟩
  refine List.Subset.antisymm_of_pairwise (List.pairwise_map.2 m.listing_lt) hsorted ?_ ?_
  · intro e he
    obtain ⟨⟨i, k⟩, hik, rfl⟩ := List.mem_map.1 he
    exact (hmem i (place k)).2 ⟨k, mem_listing.1 hik, rfl⟩
  · rintro ⟨i, x⟩ hix
    obtain ⟨k, hk, rfl⟩ := (hmem i x).1 hix
    exact List.mem_map.2 ⟨(i, k), mem_listing.2 hk, rfl⟩

end Listing

end Placed

end Lib
end Secondary

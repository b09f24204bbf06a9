import Mathlib.Data.List.Forall2
import Mathlib.Data.List.Pairwise

/-!
# Choices — one element of each list

`choices` lists every way to take one element of each of several lists.  Where `H` says which
elements fit which item, a list of items is fitted by at most one choice exactly when each item is
fitted by at most one element, given that some choice fits.
-/

namespace Secondary
namespace Lib

universe u v

variable {α : Type u} {β : Type v}

/-- `H` holds of at most one entry of the list. -/
def AtMostOne (H : α → Prop) (as : List α) : Prop :=
  as.Pairwise fun a b => ¬(H a ∧ H b)

theorem AtMostOne.singleton (H : α → Prop) (a : α) : AtMostOne H [a] :=
  List.pairwise_singleton _ a

theorem atMostOne_map {γ : Type v} {H : β → Prop} {f : γ → β} {cs : List γ} :
    AtMostOne H (cs.map f) ↔ AtMostOne (fun c => H (f c)) cs := by
  rw [AtMostOne, AtMostOne, List.pairwise_map]

theorem atMostOne_congr {H G : α → Prop} {as : List α} (h : ∀ a ∈ as, H a ↔ G a) :
    AtMostOne H as ↔ AtMostOne G as := by
  refine List.Pairwise.iff_of_mem fun ha hb => ?_
  rw [h _ ha, h _ hb]

/-- At most one in each part, and not in two parts. -/
theorem atMostOne_flatMap {H : β → Prop} {f : α → List β} {as : List α} :
    AtMostOne H (as.flatMap f) ↔
      (∀ a ∈ as, AtMostOne H (f a)) ∧ AtMostOne (fun a => ∃ b ∈ f a, H b) as := by
  rw [AtMostOne, List.pairwise_flatMap]
  refine and_congr_right fun _ => List.Pairwise.iff_of_mem fun {a a'} _ _ => ?_
  constructor
  · rintro hno ⟨⟨b, hb, hHb⟩, b', hb', hHb'⟩
    exact hno b hb b' hb' ⟨hHb, hHb'⟩
  · rintro hno b hb b' hb' ⟨hHb, hHb'⟩
    exact hno ⟨⟨b, hb, hHb⟩, b', hb', hHb'⟩

/-- Every way to take one element of each list. -/
def choices : List (List α) → List (List α)
  | [] => [[]]
  | as :: rest => as.flatMap fun a => (choices rest).map (a :: ·)

theorem mem_choices {cs : List α} :
    ∀ {ass : List (List α)}, cs ∈ choices ass ↔ List.Forall₂ (· ∈ ·) cs ass := by
  intro ass
  induction ass generalizing cs with
  | nil => simp [choices]
  | cons as ass ih =>
      simp only [choices, List.mem_flatMap, List.mem_map, ih]
      constructor
      · rintro ⟨a, ha, cs, hcs, rfl⟩
        exact .cons ha hcs
      · rintro (_ | ⟨ha, hcs⟩)
        exact ⟨_, ha, _, hcs, rfl⟩

/-- There is a choice when no list is empty. -/
theorem exists_choice_iff {ass : List (List α)} :
    (∃ cs, List.Forall₂ (· ∈ ·) cs ass) ↔ ∀ as ∈ ass, as ≠ [] := by
  induction ass with
  | nil => simp
  | cons as ass ih =>
      rw [List.forall_mem_cons, ← ih]
      constructor
      · rintro ⟨_, _ | ⟨ha, hcs⟩⟩
        exact ⟨List.ne_nil_of_mem ha, _, hcs⟩
      · rintro ⟨has, cs, hcs⟩
        obtain ⟨a, ha⟩ := List.exists_mem_of_ne_nil as has
        exact ⟨a :: cs, .cons ha hcs⟩

/-- A choice that fits has an element that fits in each list. -/
theorem exists_fitting_choice {H : α → β → Prop} {ass : List (List α)} {bs : List β} :
    (∃ cs ∈ choices ass, List.Forall₂ H cs bs) ↔
      List.Forall₂ (fun as b => ∃ a ∈ as, H a b) ass bs := by
  induction ass generalizing bs with
  | nil => simp [choices]
  | cons as ass ih =>
      simp only [choices, List.mem_flatMap, List.mem_map]
      constructor
      · rintro ⟨_, ⟨a, ha, cs, hcs, rfl⟩, hfit⟩
        obtain _ | ⟨hab, hrest⟩ := hfit
        exact .cons ⟨a, ha, hab⟩ (ih.1 ⟨cs, hcs, hrest⟩)
      · rintro (_ | ⟨⟨a, ha, hab⟩, hrest⟩)
        obtain ⟨cs, hcs, hfit⟩ := ih.2 hrest
        exact ⟨_, ⟨a, ha, cs, hcs, rfl⟩, .cons hab hfit⟩

/-- Where some choice fits, it is the only one exactly when its elements are the only ones. -/
theorem atMostOne_choices {H : α → β → Prop} {ass : List (List α)} {bs : List β}
    (hfit : List.Forall₂ (fun as b => ∃ a ∈ as, H a b) ass bs) :
    AtMostOne (fun cs => List.Forall₂ H cs bs) (choices ass) ↔
      List.Forall₂ (fun as b => AtMostOne (H · b) as) ass bs := by
  induction hfit with
  | nil => simp [choices, AtMostOne]
  | @cons as b ass bs hhead hrest ih =>
      obtain ⟨a₀, ha₀, hab₀⟩ := hhead
      have hsome : ∃ cs ∈ choices ass, List.Forall₂ H cs bs := exists_fitting_choice.2 hrest
      rw [choices, atMostOne_flatMap, List.forall₂_cons, ← ih]
      -- Each part of the list has the same first element; only the rest can differ.
      have hpart : ∀ a, AtMostOne (fun cs => List.Forall₂ H cs (b :: bs))
            ((choices ass).map (a :: ·)) ↔
          (H a b → AtMostOne (fun cs => List.Forall₂ H cs bs) (choices ass)) := by
        intro a
        rw [atMostOne_map]
        by_cases hab : H a b
        · simp [hab]
        · simp [hab, AtMostOne, List.pairwise_of_forall]
      have hmeets : ∀ a, (∃ cs ∈ (choices ass).map (a :: ·), List.Forall₂ H cs (b :: bs)) ↔
          H a b := by
        intro a
        constructor
        · rintro ⟨_, hcs, hfits⟩
          obtain ⟨cs, _, rfl⟩ := List.mem_map.1 hcs
          exact (List.forall₂_cons.1 hfits).1
        · intro hab
          obtain ⟨cs, hcs, hfits⟩ := hsome
          exact ⟨a :: cs, List.mem_map_of_mem hcs, .cons hab hfits⟩
      simp only [hpart, hmeets]
      constructor
      · rintro ⟨hall, hone⟩
        exact ⟨hone, hall a₀ ha₀ hab₀⟩
      · rintro ⟨hone, hall⟩
        exact ⟨fun _ _ _ => hall, hone⟩

end Lib
end Secondary

import Mathlib.Data.List.Nodup
import Mathlib.Order.Lattice
import Mathlib.Data.String.Basic

set_option autoImplicit false

structure OrderedMap (κ β : Type) [LinearOrder κ] where
  entries : List (κ × β)
  sorted : entries.Pairwise fun left right => left.1 < right.1

namespace OrderedMap

variable {κ β : Type} [LinearOrder κ]

def empty : OrderedMap κ β := ⟨[], List.Pairwise.nil⟩

def insertEntry (key : κ) (value : β) : List (κ × β) → List (κ × β)
  | [] => [(key, value)]
  | entry :: rest =>
    if key < entry.1 then (key, value) :: entry :: rest
    else if key = entry.1 then (key, value) :: rest
    else entry :: insertEntry key value rest

theorem mem_insertEntry_iff {key : κ} {value : β} {entries : List (κ × β)} {entry : κ × β}
    (sorted : entries.Pairwise fun left right => left.1 < right.1) :
    entry ∈ insertEntry key value entries ↔ entry = (key, value) ∨ entry.1 ≠ key ∧ entry ∈ entries := by
  induction entries with
  | nil => simp [insertEntry]
  | cons head rest ih =>
    obtain ⟨below, ordered⟩ := List.pairwise_cons.mp sorted
    have apart {bound : κ} (under : bound ≤ head.1) (later : entry ∈ rest) : entry.1 ≠ bound :=
      (under.trans_lt (below entry later)).ne'
    simp only [insertEntry]
    split
    next before =>
      have other : entry ∈ head :: rest → entry.1 ≠ key := by
        intro member
        rcases List.mem_cons.mp member with rfl | later
        · exact before.ne'
        · exact apart before.le later
      rw [List.mem_cons, and_iff_right_of_imp other]
    next =>
      split
      next same =>
        subst same
        simp only [List.mem_cons]
        constructor
        · rintro (new | later)
          · exact Or.inl new
          · exact Or.inr ⟨apart le_rfl later, Or.inr later⟩
        · rintro (new | ⟨other, rfl | later⟩)
          · exact Or.inl new
          · exact absurd rfl other
          · exact Or.inr later
      next different =>
        rw [List.mem_cons, ih ordered, List.mem_cons]
        constructor
        · rintro (rfl | new | ⟨other, later⟩)
          · exact Or.inr ⟨Ne.symm different, Or.inl rfl⟩
          · exact Or.inl new
          · exact Or.inr ⟨other, Or.inr later⟩
        · rintro (new | ⟨other, here | later⟩)
          · exact Or.inr (Or.inl new)
          · exact Or.inl here
          · exact Or.inr (Or.inr ⟨other, later⟩)

theorem sorted_insertEntry (key : κ) (value : β) {entries : List (κ × β)}
    (sorted : entries.Pairwise fun left right => left.1 < right.1) :
    (insertEntry key value entries).Pairwise fun left right => left.1 < right.1 := by
  induction entries with
  | nil => simp [insertEntry]
  | cons head rest ih =>
    obtain ⟨below, ordered⟩ := List.pairwise_cons.mp sorted
    simp only [insertEntry]
    split
    next before =>
      refine List.pairwise_cons.mpr ⟨?_, sorted⟩
      intro entry member
      rcases List.mem_cons.mp member with rfl | member
      · exact before
      · exact before.trans (below entry member)
    next notBefore =>
      split
      next same => exact List.pairwise_cons.mpr ⟨fun entry member => same ▸ below entry member, ordered⟩
      next different =>
        refine List.pairwise_cons.mpr ⟨?_, ih ordered⟩
        intro entry member
        rcases (mem_insertEntry_iff ordered).mp member with rfl | ⟨_, member⟩
        · exact lt_of_le_of_ne (not_lt.mp notBefore) (Ne.symm different)
        · exact below entry member

theorem eq_of_key_eq (map : OrderedMap κ β) {left right : κ × β} (here : left ∈ map.entries)
    (there : right ∈ map.entries) (same : left.1 = right.1) : left = right := by
  have distinct : (map.entries.map Prod.fst).Nodup :=
    List.pairwise_map.mpr (map.sorted.imp fun before => before.ne)
  exact List.inj_on_of_nodup_map distinct here there same

def insert (key : κ) (value : β) (map : OrderedMap κ β) : OrderedMap κ β :=
  ⟨insertEntry key value map.entries, sorted_insertEntry key value map.sorted⟩

def ofList (pairs : List (κ × β)) : OrderedMap κ β :=
  pairs.foldl (fun map pair => map.insert pair.1 pair.2) empty

def lastUnder (key : κ) : List (κ × β) → Option β
  | [] => none
  | pair :: rest => (lastUnder key rest).or (if pair.1 = key then some pair.2 else none)

theorem mem_foldl_insert {pairs : List (κ × β)} {map : OrderedMap κ β} {key : κ} {value : β} :
    (key, value) ∈ (pairs.foldl (fun map pair => map.insert pair.1 pair.2) map).entries ↔
      lastUnder key pairs = some value ∨ lastUnder key pairs = none ∧ (key, value) ∈ map.entries := by
  induction pairs generalizing map with
  | nil => simp [lastUnder]
  | cons pair rest ih =>
    rw [List.foldl_cons, ih, lastUnder, insert, mem_insertEntry_iff map.sorted]
    cases later : lastUnder key rest with
    | some kept => simp
    | none =>
      by_cases same : pair.1 = key
      · simp [same, eq_comm]
      · have other : (key, value) ≠ pair := fun here => same (congrArg Prod.fst here).symm
        simp [same, Ne.symm same, other]

theorem mem_ofList_iff {pairs : List (κ × β)} {key : κ} {value : β} :
    (key, value) ∈ (ofList pairs).entries ↔ lastUnder key pairs = some value := by
  rw [ofList, mem_foldl_insert]
  simp [empty]

theorem lastUnder_mem {pairs : List (κ × β)} {key : κ} {value : β} (last : lastUnder key pairs = some value) :
    (key, value) ∈ pairs := by
  induction pairs with
  | nil => cases last
  | cons pair rest ih =>
    rw [lastUnder, Option.or_eq_some_iff] at last
    rcases last with later | ⟨_, here⟩
    · exact List.mem_cons_of_mem _ (ih later)
    · split at here
      next same =>
        cases here
        subst same
        exact List.mem_cons_self
      · cases here

theorem lastUnder_isSome {pairs : List (κ × β)} {pair : κ × β} (member : pair ∈ pairs) :
    ∃ value, lastUnder pair.1 pairs = some value := by
  induction pairs with
  | nil => cases member
  | cons head rest ih =>
    cases later : lastUnder pair.1 rest with
    | some value => exact ⟨value, by simp [lastUnder, later]⟩
    | none =>
      rcases List.mem_cons.mp member with rfl | inside
      · exact ⟨pair.2, by simp [lastUnder, later]⟩
      · obtain ⟨value, found⟩ := ih inside
        rw [later] at found
        cases found

theorem mem_ofList {pairs : List (κ × β)} {entry : κ × β} (member : entry ∈ (ofList pairs).entries) :
    entry ∈ pairs :=
  lastUnder_mem (mem_ofList_iff.mp member)

@[simp] theorem entries_singleton (pair : κ × β) : (ofList [pair]).entries = [pair] := rfl

end OrderedMap

import Mathlib.Logic.Function.Basic
import ObjectHeap.Proofs.Heap.Marking
import ObjectHeap.Table.Update

/-!
# Renaming slots in tables

What happens to values and tables when the slots are numbered otherwise. A search looks at hashes
and at whether two keys are equal, and neither depends on the numbers, as long as different slots
keep different ones. So every operation of tables commutes with renaming, bucket by bucket: the
renamed table grows when the table does, and has its tombstones in the same places.
-/

set_option autoImplicit false

namespace ObjectHeap

/-! ## Values -/

/-- The reference with its slot renamed. -/
def Ref.rename {k : Kind} (σ : Nat → Nat) (r : Ref k) : Ref k := ⟨σ r.slot⟩

@[simp] theorem Ref.slot_rename {k : Kind} (σ : Nat → Nat) (r : Ref k) :
    (r.rename σ).slot = σ r.slot := rfl

def Symbol.rename (σ : Nat → Nat) (s : Symbol) : Symbol := { s with str := s.str.rename σ }

@[simp] theorem Symbol.hash_rename (σ : Nat → Nat) (s : Symbol) : (s.rename σ).hash = s.hash := rfl

@[simp] theorem Symbol.slot_rename (σ : Nat → Nat) (s : Symbol) :
    (s.rename σ).str.slot = σ s.str.slot := rfl

theorem Symbol.rename_injective {σ : Nat → Nat} (hσ : Function.Injective σ) :
    Function.Injective (Symbol.rename σ) := by
  rintro ⟨⟨slot⟩, hash⟩ ⟨⟨slot'⟩, hash'⟩ heq
  simp only [Symbol.rename, Ref.rename, Symbol.mk.injEq, Ref.mk.injEq] at heq
  rw [hσ heq.1, heq.2]

def Value.rename (σ : Nat → Nat) : Value → Value
  | .nil => .nil
  | .bool b => .bool b
  | .num n => .num n
  | .str s => .str (s.rename σ)
  | .cls c => .cls (c.rename σ)
  | .inst i => .inst (i.rename σ)

@[simp] theorem Value.target?_rename (σ : Nat → Nat) (v : Value) :
    (v.rename σ).target? = v.target?.map σ := by
  cases v <;> rfl

theorem Value.refersTo_rename {σ : Nat → Nat} {v : Value} {slot : Nat} :
    (v.rename σ).RefersTo slot ↔ ∃ s, v.RefersTo s ∧ σ s = slot := by
  simp only [← mem_target?, target?_rename, Option.toList_map, List.mem_map]

/-- Only the slot that a value refers to matters. -/
theorem Value.rename_congr {σ τ : Nat → Nat} {v : Value}
    (heq : ∀ slot, v.RefersTo slot → σ slot = τ slot) : v.rename σ = v.rename τ := by
  cases v with
  | nil | bool b | num n => rfl
  | str s => simp only [Value.rename, Symbol.rename, Ref.rename, heq _ (.str s)]
  | cls c => simp only [Value.rename, Ref.rename, heq _ (.cls c)]
  | inst i => simp only [Value.rename, Ref.rename, heq _ (.inst i)]

/-! ## Tables -/

def Bucket.rename (σ : Nat → Nat) : Bucket → Bucket
  | .empty => .empty
  | .tombstone => .tombstone
  | .entry key v => .entry (key.rename σ) (v.rename σ)

/-- The place with the value that is held there renamed. -/
def Place.rename (σ : Nat → Nat) : Place → Place
  | .held index v => .held index (v.rename σ)
  | .reusable index => .reusable index
  | .vacant index => .vacant index

@[simp] theorem Place.index_rename (σ : Nat → Nat) (place : Place) :
    (place.rename σ).index = place.index := by
  cases place <;> rfl

namespace Table

/-- An entry with its key and its value renamed. -/
def renameEntry (σ : Nat → Nat) (e : Symbol × Value) : Symbol × Value :=
  (e.1.rename σ, e.2.rename σ)

/-- The table with its keys and values renamed where they are. -/
def rename (σ : Nat → Nat) (t : Table) : Table :=
  { t with buckets := t.buckets.map (Bucket.rename σ) }

variable {σ : Nat → Nat} {t other : Table} {key : Symbol} {v : Value}

@[simp] theorem capacity_rename (σ : Nat → Nat) (t : Table) :
    (t.rename σ).capacity = t.capacity := Array.size_map

@[simp] theorem rename_empty (σ : Nat → Nat) : (∅ : Table).rename σ = ∅ := by
  rw [rename, show (∅ : Table).buckets = #[] from rfl, Array.map_empty]
  rfl

@[simp] theorem entries_rename (σ : Nat → Nat) (t : Table) :
    (t.rename σ).entries = t.entries.map (renameEntry σ) := by
  have hbinding : ∀ b : Bucket, (b.rename σ).binding? = b.binding?.map (renameEntry σ) := by
    intro b
    cases b <;> rfl
  rw [entries, entries, rename, Array.toList_map, List.filterMap_map, List.map_filterMap]
  exact congrArg (List.filterMap · _) (funext hbinding)

@[simp] theorem targets_rename (σ : Nat → Nat) (t : Table) :
    (t.rename σ).targets = t.targets.map σ := by
  rw [targets, targets, entries_rename, List.flatMap_map, List.map_flatMap]
  refine congrArg (List.flatMap · _) (funext ?_)
  rintro ⟨key, v⟩
  simp only [renameEntry, Symbol.slot_rename, Value.target?_rename, List.map_cons,
    Option.toList_map]

/-! ### Searching -/

/-- A search ends at the same place. -/
theorem locateFrom_rename (hσ : Function.Injective σ) (buckets : Array Bucket) (key : Symbol)
    (steps index : Nat) (spare : Option Nat) :
    locateFrom (buckets.map (Bucket.rename σ)) (key.rename σ) steps index spare =
      (locateFrom buckets key steps index spare).map (Place.rename σ) := by
  induction steps generalizing index spare with
  | zero => rfl
  | succ steps ih =>
    unfold locateFrom
    rw [Array.getElem?_map, Array.size_map]
    cases hb : buckets[index]? with
    | none => rfl
    | some b =>
      cases b with
      | empty => cases spare <;> rfl
      | tombstone => exact ih _ _
      | entry k w =>
        by_cases hk : k = key
        · simp [Bucket.rename, hk, Place.rename]
        · have hne : k.rename σ ≠ key.rename σ := fun heq =>
            hk (Symbol.rename_injective hσ heq)
          simpa [Bucket.rename, hk, hne] using ih _ _

theorem locate?_rename (hσ : Function.Injective σ) (buckets : Array Bucket) (key : Symbol) :
    locate? (buckets.map (Bucket.rename σ)) (key.rename σ) =
      (locate? buckets key).map (Place.rename σ) := by
  rw [locate?, locateFrom_rename hσ, Array.size_map]
  rfl

theorem get?_rename (hσ : Function.Injective σ) (t : Table) (key : Symbol) :
    (t.rename σ).get? (key.rename σ) = (t.get? key).map (Value.rename σ) := by
  rw [get?, get?, rename, locate?_rename hσ]
  rcases locate? t.buckets key with _ | _ | _ | _ <;> rfl

/-! ### Changes -/

theorem map_rename_set (σ : Nat → Nat) (buckets : Array Bucket) (index : Nat) (b : Bucket) :
    (buckets.map (Bucket.rename σ)).setIfInBounds index (b.rename σ) =
      (buckets.setIfInBounds index b).map (Bucket.rename σ) := by
  apply Array.ext_getElem?
  intro i
  rw [Array.getElem?_map, Array.getElem?_setIfInBounds, Array.getElem?_setIfInBounds,
    Array.size_map, Array.getElem?_map]
  split
  · split <;> rfl
  · rfl

theorem settle_rename (hσ : Function.Injective σ) (buckets : Array Bucket) (key : Symbol)
    (v : Value) :
    settle (buckets.map (Bucket.rename σ)) (key.rename σ) (v.rename σ) =
      (settle buckets key v).map (Bucket.rename σ) := by
  rw [settle, settle, locate?_rename hσ]
  cases locate? buckets key with
  | none => rfl
  | some place =>
    simp only [Option.map_some, Place.index_rename]
    exact map_rename_set σ buckets place.index (.entry key v)

theorem foldl_settle_rename (hσ : Function.Injective σ) (entries : List (Symbol × Value))
    (buckets : Array Bucket) :
    (entries.map (renameEntry σ)).foldl (fun buckets (key, v) => settle buckets key v)
        (buckets.map (Bucket.rename σ)) =
      (entries.foldl (fun buckets (key, v) => settle buckets key v) buckets).map
        (Bucket.rename σ) := by
  induction entries generalizing buckets with
  | nil => rfl
  | cons e rest ih =>
    obtain ⟨key, v⟩ := e
    rw [List.map_cons, List.foldl_cons, List.foldl_cons, ← ih, ← settle_rename hσ]
    rfl

theorem rebuild_rename (hσ : Function.Injective σ) (t : Table) (capacity : Nat) :
    (t.rename σ).rebuild capacity = (t.rebuild capacity).rename σ := by
  have hempty : Array.replicate capacity Bucket.empty =
      (Array.replicate capacity Bucket.empty).map (Bucket.rename σ) := by
    rw [Array.map_replicate]
    rfl
  have hbuckets := foldl_settle_rename hσ t.entries (Array.replicate capacity .empty)
  rw [← hempty, ← entries_rename] at hbuckets
  have hused : (t.rename σ).entries.length = t.entries.length := by
    rw [entries_rename, List.length_map]
  rw [rebuild, hbuckets, hused]
  rfl

theorem reserve_rename (hσ : Function.Injective σ) (t : Table) :
    (t.rename σ).reserve = t.reserve.rename σ := by
  have hused : (t.rename σ).used = t.used := rfl
  unfold reserve
  rw [capacity_rename, hused, rebuild_rename hσ]
  split <;> rfl

theorem insert_rename (hσ : Function.Injective σ) (t : Table) (key : Symbol) (v : Value) :
    (t.rename σ).insert (key.rename σ) (v.rename σ) =
      ((t.insert key v).1.rename σ, (t.insert key v).2) := by
  have hput := fun index => map_rename_set σ t.reserve.buckets index (.entry key v)
  simp only [insert, reserve_rename hσ]
  rw [show (t.reserve.rename σ).buckets = t.reserve.buckets.map (Bucket.rename σ) from rfl,
    locate?_rename hσ]
  rcases locate? t.reserve.buckets key with _ | _ | _ | _
  · rfl
  all_goals
    simp only [Option.map_some, Place.rename, rename]
    rw [← hput]
    rfl

theorem erase_rename (hσ : Function.Injective σ) (t : Table) (key : Symbol) :
    (t.rename σ).erase (key.rename σ) = ((t.erase key).1.rename σ, (t.erase key).2) := by
  have hbury := fun index => map_rename_set σ t.buckets index .tombstone
  simp only [erase]
  rw [show (t.rename σ).buckets = t.buckets.map (Bucket.rename σ) from rfl, locate?_rename hσ]
  rcases locate? t.buckets key with _ | ⟨index, w⟩ | _ | _
  · rfl
  · simp only [Option.map_some, Place.rename, rename]
    rw [← hbury]
    rfl
  · rfl
  · rfl

theorem merge_rename (hσ : Function.Injective σ) (t other : Table) :
    (t.rename σ).merge (other.rename σ) = (t.merge other).rename σ := by
  rw [merge, merge, entries_rename]
  generalize other.entries = entries
  induction entries generalizing t with
  | nil => rfl
  | cons e rest ih =>
    rw [List.map_cons, List.foldl_cons, List.foldl_cons, ← ih]
    exact congrArg (fun s => List.foldl _ s _) (congrArg Prod.fst (insert_rename hσ t e.1 e.2))

/-- Only the slots that a table refers to matter. -/
theorem rename_congr {σ τ : Nat → Nat} {t : Table}
    (heq : ∀ slot ∈ t.targets, σ slot = τ slot) : t.rename σ = t.rename τ := by
  rw [rename, rename, Table.mk.injEq]
  refine ⟨Array.map_congr_left ?_, rfl, rfl⟩
  intro b hb
  cases b with
  | empty | tombstone => rfl
  | entry key v =>
    have he : (key, v) ∈ t.entries := by
      rw [entries, List.mem_filterMap]
      exact ⟨_, Array.mem_toList_iff.2 hb, rfl⟩
    have hkey : σ key.str.slot = τ key.str.slot :=
      heq _ (mem_targets.2 ⟨key, v, he, .inl rfl⟩)
    have hv : v.rename σ = v.rename τ :=
      Value.rename_congr fun slot hslot => heq _ (mem_targets.2 ⟨key, v, he, .inr hslot⟩)
    simp only [Bucket.rename, Symbol.rename, Ref.rename, hkey, hv]

end Table

end ObjectHeap

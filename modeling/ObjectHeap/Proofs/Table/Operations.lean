import ObjectHeap.Proofs.Table.View

/-!
# Tables are finite maps

Any number of tables can be worked on together: one can be merged into another or copied over it. So
a run is about a store of them, numbered and all empty at first, and a command says what is done to
which. The same commands make sense for finite maps, where all that is to be known about an
operation is one line of `Mapping.operations`.

The two runs give the same answers, command by command, and at the end each table implements the map
of its number (`Store.run_refines`). This is proved as a simulation in which the map that belongs to
a table is its view, and since a run can be cut off anywhere it holds at every moment in between.
-/

set_option autoImplicit false

namespace ObjectHeap

/-- What something that is used as a table can do. -/
structure Operations (τ : Type) where
  empty : τ
  /-- Binds a key. Also answers whether the key is new. -/
  insert : τ → Symbol → Value → τ × Bool
  /-- Removes a key. Also answers whether it was there. -/
  erase : τ → Symbol → τ × Bool
  get? : τ → Symbol → Option Value
  /-- Inserts what the second has into the first. -/
  merge : τ → τ → τ
  /-- Removes every key that is not to be kept. Also answers how many there were. -/
  prune : τ → (Symbol → Bool) → τ × Nat

def Table.operations : Operations Table where
  empty := ∅
  insert := Table.insert
  erase := Table.erase
  get? := Table.get?
  merge := Table.merge
  prune := Table.prune

def Mapping.operations : Operations (Mapping Symbol) where
  empty := ∅
  insert map key v := (map.insert key v, key ∉ map)
  erase map key := (map.erase key, key ∈ map)
  get? map key := map.lookup key
  merge map other := other ∪ map
  prune map keep := (map.keep keep, map.dropped keep)

/-- A command to one of several tables, or to one with the help of another. -/
inductive Table.Command
  | insert (table : Nat) (key : Symbol) (v : Value)
  | erase (table : Nat) (key : Symbol)
  | get (table : Nat) (key : Symbol)
  | merge (table source : Nat)
  | prune (table : Nat) (keep : Symbol → Bool)
  | clear (table : Nat)
  | copy (table source : Nat)

inductive Table.Answer
  | done
  | flag (b : Bool)
  | found (v : Option Value)
  | count (n : Nat)
  deriving DecidableEq, Repr

open Table (Command Answer)

/-- Tables, told apart by numbers. -/
abbrev Store (τ : Type) : Type := Nat → τ

namespace Store

variable {τ : Type}

/-- Replaces one table and gives an answer. -/
def write (store : Store τ) (table : Nat) (t : τ) (answer : Answer) : Store τ × Answer :=
  (Function.update store table t, answer)

/-- Carries out a command. -/
def perform (ops : Operations τ) (store : Store τ) : Command → Store τ × Answer
  | .insert table key v =>
    let (t, isNew) := ops.insert (store table) key v
    store.write table t (.flag isNew)
  | .erase table key =>
    let (t, found) := ops.erase (store table) key
    store.write table t (.flag found)
  | .get table key => (store, .found (ops.get? (store table) key))
  | .merge table source => store.write table (ops.merge (store table) (store source)) .done
  | .prune table keep =>
    let (t, dropped) := ops.prune (store table) keep
    store.write table t (.count dropped)
  | .clear table => store.write table ops.empty .done
  | .copy table source => store.write table (store source) .done

/-- Carries out commands one after the other. -/
def run (ops : Operations τ) (store : Store τ) : List Command → Store τ × List Answer
  | [] => (store, [])
  | command :: rest =>
    let (store, answer) := store.perform ops command
    let (store, answers) := run ops store rest
    (store, answer :: answers)

/-- The store in which all tables are empty. -/
def init (ops : Operations τ) : Store τ := fun _ => ops.empty

/-! ## The layout is kept -/

theorem layout_write {store : Store Table} (hl : ∀ i, (store i).Layout) (table : Nat) {t : Table}
    (ht : t.Layout) (answer : Answer) (i : Nat) : ((store.write table t answer).1 i).Layout := by
  show (Function.update store table t i).Layout
  rcases eq_or_ne i table with rfl | hne
  · rwa [Function.update_self]
  · rw [Function.update_of_ne hne]
    exact hl i

theorem layout_perform {store : Store Table} (hl : ∀ i, (store i).Layout) (command : Command) :
    ∀ i, ((store.perform Table.operations command).1 i).Layout := by
  cases command with
  | insert table key v => exact layout_write hl table (hl table).insert _
  | erase table key => exact layout_write hl table (hl table).erase _
  | get table key => exact hl
  | merge table source => exact layout_write hl table ((hl table).merge _) _
  | prune table keep => exact layout_write hl table ((hl table).prune keep) _
  | clear table => exact layout_write hl table .empty _
  | copy table source => exact layout_write hl table (hl source) _

theorem layout_run {store : Store Table} (hl : ∀ i, (store i).Layout) (commands : List Command) :
    ∀ i, ((store.run Table.operations commands).1 i).Layout := by
  induction commands generalizing store with
  | nil => exact hl
  | cons command rest ih => exact ih (layout_perform hl command)

theorem layout_init (i : Nat) : (init Table.operations i).Layout := .empty

/-! ## The maps follow the tables -/

/-- The map of each table. -/
def views (store : Store Table) : Store (Mapping Symbol) := fun i => (store i).view id

theorem views_write (store : Store Table) (table : Nat) (t : Table) (answer : Answer) :
    store.views.write table (t.view id) answer =
      ((store.write table t answer).1.views, (store.write table t answer).2) := by
  unfold write
  refine Prod.ext (funext fun i => ?_) rfl
  rcases eq_or_ne i table with rfl | hne
  · simp only [views, Function.update_self]
  · simp only [views, Function.update_of_ne hne]

end Store

namespace Table

variable {t other : Table} {key : Symbol} {v : Value}

theorem lookup_view_id (hl : t.Layout) (key : Symbol) : (t.view id).lookup key = t.get? key :=
  lookup_view hl (.univ t) (Set.injOn_id _) (Set.mem_univ key)

theorem get?_eq_none_iff_not_mem (hl : t.Layout) : t.get? key = none ↔ key ∉ t.view id := by
  rw [← lookup_view_id hl, Finmap.lookup_eq_none]

theorem erase_found_iff (hl : t.Layout) : (t.erase key).2 = true ↔ t.get? key ≠ none := by
  cases hget : t.get? key with
  | none => simp [erase_of_absent hget]
  | some v =>
    obtain ⟨i, hi⟩ := mem_entries.1 ((get?_eq_some_iff hl).1 hget)
    simp [erase_of_entry hl hi]

/-- An insertion does to the map what it does to the table, and gives the same answer. -/
theorem operations_insert (hl : t.Layout) : Mapping.operations.insert (t.view id) key v =
    ((t.insert key v).1.view id, (t.insert key v).2) := by
  refine Prod.ext (view_insert hl (.univ t) (Set.injOn_id _) (Set.mem_univ key)).symm ?_
  refine Bool.eq_iff_iff.2 ?_
  rw [insert_isNew_iff hl, get?_eq_none_iff_not_mem hl]
  exact decide_eq_true_iff

theorem operations_erase (hl : t.Layout) : Mapping.operations.erase (t.view id) key =
    ((t.erase key).1.view id, (t.erase key).2) := by
  refine Prod.ext (view_erase hl (.univ t) (Set.injOn_id _) (Set.mem_univ key)).symm ?_
  refine Bool.eq_iff_iff.2 ?_
  rw [erase_found_iff hl, ne_eq, get?_eq_none_iff_not_mem hl, not_not]
  exact decide_eq_true_iff

theorem operations_merge (hl : t.Layout) (ho : other.Layout) :
    Mapping.operations.merge (t.view id) (other.view id) = (t.merge other).view id :=
  (view_merge hl (.univ t) ho (.univ other) (Set.injOn_id _)).symm

theorem operations_prune (hl : t.Layout) (keep : Symbol → Bool) :
    Mapping.operations.prune (t.view id) keep =
      ((t.prune keep).1.view id, (t.prune keep).2) :=
  Prod.ext (view_prune hl keep).symm (prune_dropped hl keep).symm

end Table

namespace Store

/-- A command does to the maps what it does to the tables, and gets the same answer. -/
theorem perform_views {store : Store Table} (hl : ∀ i, (store i).Layout) (command : Command) :
    store.views.perform Mapping.operations command =
      ((store.perform Table.operations command).1.views,
        (store.perform Table.operations command).2) := by
  cases command with
  | insert table key v =>
    simp only [perform, views, Table.operations_insert (hl table)]
    exact views_write store table _ _
  | erase table key =>
    simp only [perform, views, Table.operations_erase (hl table)]
    exact views_write store table _ _
  | get table key =>
    refine Prod.ext rfl ?_
    exact congrArg Answer.found (Table.lookup_view_id (hl table) key)
  | merge table source =>
    simp only [perform, views, Table.operations_merge (hl table) (hl source)]
    exact views_write store table _ _
  | prune table keep =>
    simp only [perform, views, Table.operations_prune (hl table)]
    exact views_write store table _ _
  | clear table => exact views_write store table ∅ _
  | copy table source => exact views_write store table (store source) _

theorem run_views {store : Store Table} (hl : ∀ i, (store i).Layout) (commands : List Command) :
    store.views.run Mapping.operations commands =
      ((store.run Table.operations commands).1.views,
        (store.run Table.operations commands).2) := by
  induction commands generalizing store with
  | nil => rfl
  | cons command rest ih =>
    simp only [run, perform_views hl command, ih (layout_perform hl command)]

end Store

/-- All that can be seen of a table is what is in the map. -/
structure Table.Implements (t : Table) (map : Mapping Symbol) : Prop where
  get?_eq : ∀ key, t.get? key = map.lookup key
  size_eq : t.size = map.keys.card
  isEmpty_iff : t.isEmpty = true ↔ map = ∅
  /-- The entries are the pairs of the map, each of them once. -/
  entries_eq : (t.entries.map fun e => (⟨e.1, e.2⟩ : Sigma fun _ : Symbol => Value) : Multiset _) =
    map.entries

theorem Table.implements_view {t : Table} (hl : t.Layout) : t.Implements (t.view id) where
  get?_eq key := (lookup_view_id hl key).symm
  size_eq := (card_keys_view hl (.univ t) (Set.injOn_id _)).symm
  isEmpty_iff := by
    rw [isEmpty, beq_iff_eq, ← card_keys_view hl (.univ t) (Set.injOn_id _), Finset.card_eq_zero]
    constructor
    · intro hkeys
      refine Finmap.ext_lookup fun key => ?_
      rw [Finmap.lookup_empty, Finmap.lookup_eq_none, ← Finmap.mem_keys, hkeys]
      exact Finset.notMem_empty key
    · exact fun hempty => hempty ▸ Finmap.keys_empty
  entries_eq := (entries_view hl (.univ t) (Set.injOn_id _)).symm

/-- **Tables are finite maps.** Commands to tables are answered as the same commands to finite maps
are, and each table implements its map. -/
theorem Store.run_refines (commands : List Command) :
    ((init Table.operations).run Table.operations commands).2 =
      ((init Mapping.operations).run Mapping.operations commands).2 ∧
    ∀ i, (((init Table.operations).run Table.operations commands).1 i).Implements
      (((init Mapping.operations).run Mapping.operations commands).1 i) := by
  have hinit : (init Table.operations).views = init Mapping.operations := rfl
  rw [← hinit, run_views layout_init]
  exact ⟨rfl, fun i => Table.implements_view (layout_run layout_init commands i)⟩

end ObjectHeap

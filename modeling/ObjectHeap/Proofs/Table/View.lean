import Mathlib.Data.Finmap
import ObjectHeap.Proofs.Table.Bindings

/-!
# A table as a finite map

Which buckets the entries of a table are in is nobody's business but the table's. To everyone else
it is a finite map, and `Table.view` is that map. It can be taken with the keys as they are, or with
other names for them, as long as different keys have different names: a table of globals is also a
map from the texts of its keys. So the names are an argument, and what they are different on is a
set of symbols that holds the keys.

There is one equation for each operation, and after them nobody has to look at entries.
-/

set_option autoImplicit false

namespace ObjectHeap

/-- A finite map to values. -/
abbrev Mapping (α : Type) : Type := Finmap fun _ : α => Value

namespace Mapping

variable {α : Type} [DecidableEq α]

/-- The part of a map whose names are to be kept. -/
def keep (map : Mapping α) (p : α → Bool) : Mapping α where
  entries := map.entries.filter fun e => p e.1
  nodupKeys := Multiset.nodup_keys.1 <|
    Multiset.nodup_of_le (Multiset.map_le_map (Multiset.filter_le _ _))
      (Multiset.nodup_keys.2 map.nodupKeys)

/-- How many of its names are not to be kept. -/
def dropped (map : Mapping α) (p : α → Bool) : Nat :=
  map.entries.countP fun e => p e.1 = false

theorem lookup_keep (map : Mapping α) (p : α → Bool) (a : α) :
    (map.keep p).lookup a = if p a then map.lookup a else none := by
  apply Option.ext
  intro v
  rw [Finmap.lookup_eq_some_iff, keep, Multiset.mem_filter, ← Finmap.lookup_eq_some_iff]
  split <;> simp_all

theorem lookup_union (left right : Mapping α) (a : α) :
    (left ∪ right).lookup a = (left.lookup a).or (right.lookup a) := by
  by_cases ha : a ∈ left
  · obtain ⟨w, hw⟩ := Finmap.mem_iff.1 ha
    rw [Finmap.lookup_union_left ha, hw, Option.some_or]
  · rw [Finmap.lookup_union_right ha, Finmap.lookup_eq_none.2 ha, Option.none_or]

end Mapping

namespace Table

variable {α : Type} {t other : Table} {name : Symbol → α} {symbols : Set Symbol} {key : Symbol}
  {v : Value}

/-- The entries of a table under other names. -/
def renamed (name : Symbol → α) (t : Table) : List (Sigma fun _ : α => Value) :=
  t.entries.map fun e => ⟨name e.1, e.2⟩

/-- The finite map that a table is, when its keys are called by these names. -/
def view [DecidableEq α] (name : Symbol → α) (t : Table) : Mapping α := (t.renamed name).toFinmap

/-! ## Keys and their names -/

/-- The keys of a table are among these symbols. -/
def KeysIn (t : Table) (symbols : Set Symbol) : Prop := ∀ e ∈ t.entries, e.1 ∈ symbols

theorem KeysIn.univ (t : Table) : t.KeysIn Set.univ := fun _ _ => Set.mem_univ _

theorem KeysIn.insert (ht : t.KeysIn symbols) (hl : t.Layout) (hkey : key ∈ symbols) :
    (t.insert key v).1.KeysIn symbols := by
  intro e he
  rcases (mem_entries_insert hl).1 he with rfl | ⟨-, hold⟩
  · exact hkey
  · exact ht e hold

theorem KeysIn.erase (ht : t.KeysIn symbols) (hl : t.Layout) : (t.erase key).1.KeysIn symbols :=
  fun e he => ht e ((mem_entries_erase hl).1 he).2

theorem KeysIn.merge (ht : t.KeysIn symbols) (hl : t.Layout) (ho : other.KeysIn symbols)
    (hl' : other.Layout) : (t.merge other).KeysIn symbols := by
  rintro ⟨key, v⟩ he
  rw [← get?_eq_some_iff (hl.merge other), get?_merge hl hl', Option.or_eq_some_iff] at he
  rcases he with hright | ⟨-, hleft⟩
  · exact ho _ ((get?_eq_some_iff hl').1 hright)
  · exact ht _ ((get?_eq_some_iff hl).1 hleft)

theorem nodupKeys_renamed (hl : t.Layout) (ht : t.KeysIn symbols) (hn : Set.InjOn name symbols) :
    (t.renamed name).NodupKeys := by
  rw [renamed, List.nodupKeys_iff_pairwise, List.pairwise_map]
  refine hl.searchable.pairwise_entries.imp_of_mem ?_
  intro e f he hf hne heq
  exact hne (hn (ht e he) (ht f hf) heq)

/-! ## What the map is -/

section View

variable [DecidableEq α]

/-- The names that are bound are those of the keys. -/
theorem mem_view {a : α} : a ∈ t.view name ↔ ∃ e ∈ t.entries, name e.1 = a := by
  simp only [view, Finmap.mem_list_toFinmap, renamed, List.mem_map]
  constructor
  · rintro ⟨v, e, he, heq⟩
    exact ⟨e, he, congrArg Sigma.fst heq⟩
  · rintro ⟨e, he, rfl⟩
    exact ⟨e.2, e, he, rfl⟩

/-- A name is bound to what the key with that name is bound to. -/
theorem lookup_view (hl : t.Layout) (ht : t.KeysIn symbols) (hn : Set.InjOn name symbols)
    (hkey : key ∈ symbols) : (t.view name).lookup (name key) = t.get? key := by
  apply Option.ext
  intro v
  rw [view, Finmap.dlookup_list_toFinmap, ← Option.mem_def,
    List.mem_dlookup_iff (nodupKeys_renamed hl ht hn), get?_eq_some_iff hl, renamed, List.mem_map]
  constructor
  · rintro ⟨⟨key', w⟩, he, heq⟩
    obtain ⟨hname, rfl⟩ := Sigma.mk.inj_iff.1 heq |>.imp_right eq_of_heq
    obtain rfl : key' = key := hn (ht _ he) hkey hname
    exact he
  · exact fun he => ⟨(key, v), he, rfl⟩

/-- What is no name of a key is not bound. -/
theorem lookup_view_eq_none (hl : t.Layout) (ht : t.KeysIn symbols) (hn : Set.InjOn name symbols)
    {a : α} (ha : ∀ key ∈ symbols, name key ≠ a) : (t.view name).lookup a = none := by
  apply Option.eq_none_iff_forall_ne_some.2
  intro v hv
  rw [view, Finmap.dlookup_list_toFinmap, ← Option.mem_def,
    List.mem_dlookup_iff (nodupKeys_renamed hl ht hn), renamed, List.mem_map] at hv
  obtain ⟨e, he, heq⟩ := hv
  exact ha e.1 (ht e he) (congrArg Sigma.fst heq)

/-- A map is the view of a table if it finds what the table finds, and nothing else. -/
theorem view_eq_of_lookup (hl : t.Layout) (ht : t.KeysIn symbols) (hn : Set.InjOn name symbols)
    {map : Mapping α} (hkeys : ∀ key ∈ symbols, map.lookup (name key) = t.get? key)
    (hnone : ∀ a, (∀ key ∈ symbols, name key ≠ a) → map.lookup a = none) : t.view name = map := by
  apply Finmap.ext_lookup
  intro a
  by_cases ha : ∃ key ∈ symbols, name key = a
  · obtain ⟨key, hkey, rfl⟩ := ha
    rw [lookup_view hl ht hn hkey, hkeys key hkey]
  · have hname : ∀ key ∈ symbols, name key ≠ a := fun key hkey heq => ha ⟨key, hkey, heq⟩
    rw [lookup_view_eq_none hl ht hn hname, hnone a hname]

/-- Each pair of the map is an entry of the table, and is so once. -/
theorem entries_view (hl : t.Layout) (ht : t.KeysIn symbols) (hn : Set.InjOn name symbols) :
    (t.view name).entries = ↑(t.renamed name) := by
  have hnodup := nodupKeys_renamed hl ht hn
  refine ((t.view name).nodup_entries.ext (Multiset.coe_nodup.2 hnodup.nodup)).2 ?_
  rintro ⟨a, v⟩
  rw [← Finmap.lookup_eq_some_iff, view, Finmap.dlookup_list_toFinmap, Multiset.mem_coe,
    ← List.mem_dlookup_iff hnodup, Option.mem_def]

theorem card_keys_view (hl : t.Layout) (ht : t.KeysIn symbols) (hn : Set.InjOn name symbols) :
    (t.view name).keys.card = t.size := by
  show Multiset.card ((t.view name).entries.map Sigma.fst) = t.size
  rw [Multiset.card_map, entries_view hl ht hn, Multiset.coe_card, renamed, List.length_map,
    hl.length_entries]

/-! ## One equation for each operation -/

@[simp] theorem view_empty : (∅ : Table).view name = ∅ := rfl

/-- Only what a table finds matters, not the buckets. -/
theorem view_congr (hl : t.Layout) (ht : t.KeysIn symbols) (ho : other.Layout)
    (hk : other.KeysIn symbols) (hn : Set.InjOn name symbols)
    (heq : ∀ key, other.get? key = t.get? key) : other.view name = t.view name :=
  view_eq_of_lookup ho hk hn
    (fun key hkey => by rw [lookup_view hl ht hn hkey, heq])
    fun _ ha => lookup_view_eq_none hl ht hn ha

theorem view_insert (hl : t.Layout) (ht : t.KeysIn symbols) (hn : Set.InjOn name symbols)
    (hkey : key ∈ symbols) :
    (t.insert key v).1.view name = (t.view name).insert (name key) v := by
  refine view_eq_of_lookup hl.insert (ht.insert hl hkey) hn (fun k hk => ?_) fun a ha => ?_
  · rw [get?_insert hl]
    split
    · next heq => rw [heq, Finmap.lookup_insert]
    · next hne =>
      rw [Finmap.lookup_insert_of_ne _ fun heq => hne (hn hk hkey heq), lookup_view hl ht hn hk]
  · rw [Finmap.lookup_insert_of_ne _ (ha key hkey).symm, lookup_view_eq_none hl ht hn ha]

theorem view_erase (hl : t.Layout) (ht : t.KeysIn symbols) (hn : Set.InjOn name symbols)
    (hkey : key ∈ symbols) : (t.erase key).1.view name = (t.view name).erase (name key) := by
  refine view_eq_of_lookup hl.erase (ht.erase hl) hn (fun k hk => ?_) fun a ha => ?_
  · rw [get?_erase hl]
    split
    · next heq => rw [heq, Finmap.lookup_erase]
    · next hne =>
      rw [Finmap.lookup_erase_ne fun heq => hne (hn hk hkey heq), lookup_view hl ht hn hk]
  · rw [Finmap.lookup_erase_ne (ha key hkey).symm, lookup_view_eq_none hl ht hn ha]

/-- Merging is union, in which the other table wins. -/
theorem view_merge (hl : t.Layout) (ht : t.KeysIn symbols) (ho : other.Layout)
    (hk : other.KeysIn symbols) (hn : Set.InjOn name symbols) :
    (t.merge other).view name = other.view name ∪ t.view name := by
  refine view_eq_of_lookup (hl.merge other) (ht.merge hl hk ho) hn (fun key hkey => ?_)
    fun a ha => ?_
  · rw [Mapping.lookup_union, lookup_view hl ht hn hkey, lookup_view ho hk hn hkey,
      get?_merge hl ho]
  · rw [Mapping.lookup_union, lookup_view_eq_none hl ht hn ha, lookup_view_eq_none ho hk hn ha,
      Option.none_or]

end View

/-! ## Pruning -/

theorem get?_prune (hl : t.Layout) (keep : Symbol → Bool) :
    (t.prune keep).1.get? key = if keep key then t.get? key else none := by
  apply Option.ext
  intro v
  rw [get?_eq_some_iff (hl.prune keep), mem_entries_prune, ← get?_eq_some_iff hl]
  split <;> simp_all

theorem view_prune (hl : t.Layout) (keep : Symbol → Bool) :
    (t.prune keep).1.view id = (t.view id).keep keep := by
  have hn : Set.InjOn (id : Symbol → Symbol) Set.univ := Set.injOn_id _
  refine view_eq_of_lookup (hl.prune keep) (.univ _) hn (fun key hkey => ?_) fun a ha => ?_
  · rw [Mapping.lookup_keep, lookup_view hl (.univ t) hn hkey, get?_prune hl, id]
  · exact absurd rfl (ha a (Set.mem_univ a))

/-- Pruning answers how many keys it has dropped. -/
theorem prune_dropped (hl : t.Layout) (keep : Symbol → Bool) :
    (t.prune keep).2 = (t.view id).dropped keep := by
  rw [Mapping.dropped, entries_view hl (.univ t) (Set.injOn_id _), Multiset.coe_countP, renamed,
    List.countP_map, prune_dropped_eq]
  refine List.countP_congr fun e _ => ?_
  simp

end Table

end ObjectHeap

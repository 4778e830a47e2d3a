import ObjectHeap.Proofs.Table.Seeking

/-!
# Growing loses nothing

A table grows by settling its entries one by one in an array that starts empty. On the way the array
is `halfway`: it holds the entries that have been settled, in the order of the old buckets, and these
need not be where the old array had them. What is true of it at every moment is `Settled`, and from
that the rest follows. There are no tombstones and the next key is not there yet, so its search ends
at an empty bucket (`Layout.settlesNext`); and since a bucket that is filled never was filled before, no
entry gets lost.
-/

set_option autoImplicit false

namespace ObjectHeap

namespace Table

variable {t : Table} {front rest : List (Symbol × Value)} {entry : Symbol × Value}

/-! ## Halfway -/

/-- The array into which a table grows, after some entries have been settled in it. -/
def halfway (t : Table) (front : List (Symbol × Value)) : Array Bucket :=
  front.foldl (fun buckets entry => settle buckets entry.1 entry.2)
    (Array.replicate (grown t.capacity) .empty)

theorem halfway_append (t : Table) (front : List (Symbol × Value)) (entry : Symbol × Value) :
    t.halfway (front ++ [entry]) = settle (t.halfway front) entry.1 entry.2 := by
  rw [halfway, List.foldl_append]
  rfl

theorem buckets_rebuild (t : Table) :
    (t.rebuild (grown t.capacity)).buckets = t.halfway t.entries := rfl

theorem Layout.settled_halfway (h : t.Layout) (heq : t.entries = front ++ rest) :
    Settled (grown t.capacity) front (t.halfway front) := by
  have hroom := h.room_grown
  have hkeys := h.searchable.pairwise_entries
  rw [heq] at hroom hkeys
  rw [List.length_append] at hroom
  exact (Settled.replicate (grown t.capacity)).foldl (by rw [List.nil_append]; omega)
    (List.pairwise_append.1 hkeys).1

theorem Layout.grown_eq_two_pow (h : t.Layout) : ∃ e, grown t.capacity = 2 ^ e := by
  rcases h.rebuild.capacity_cases with hzero | ⟨-, hpow⟩
  · rw [h.capacity_rebuild] at hzero
    exact absurd hzero (Nat.ne_of_gt (Nat.lt_of_le_of_lt (Nat.zero_le _) (lt_grown _)))
  · rwa [h.capacity_rebuild] at hpow

/-- In the middle of growing there is always an empty bucket left, and every key has its place. -/
theorem Layout.searchedExactly_halfway (h : t.Layout) (heq : t.entries = front ++ rest) :
    SearchedExactly (t.halfway front) := by
  have hs := h.settled_halfway heq
  obtain ⟨e, hpow⟩ := h.grown_eq_two_pow
  have hroom := h.room_grown
  rw [heq, List.length_append] at hroom
  have hused : ((t.halfway front).countP fun b => !b.isEmpty) < (t.halfway front).size := by
    rw [hs.used_eq, hs.size_eq]
    omega
  obtain ⟨i, hi⟩ := Table.exists_empty hused
  exact hs.searchable.searchedExactly (hs.size_eq.trans hpow) hi

/-- The next entry is put into a bucket that is still empty, at which the search for its key ends. -/
def SettlesNext (t : Table) (front : List (Symbol × Value)) (entry : Symbol × Value) : Prop :=
  ∃ index, (t.halfway front)[index]? = some .empty ∧
    locate? (t.halfway front) entry.1 = some (.vacant index) ∧
    FindsPlace (t.halfway front) entry.1 (.vacant index) ∧
    t.halfway (front ++ [entry]) =
      (t.halfway front).setIfInBounds index (.entry entry.1 entry.2)

theorem Layout.settlesNext (h : t.Layout) (heq : t.entries = front ++ entry :: rest) :
    t.SettlesNext front entry := by
  have hs := h.settled_halfway heq
  have hkeys := h.searchable.pairwise_entries
  have hroom := h.room_grown
  rw [heq] at hkeys hroom
  rw [List.length_append] at hroom
  have hnew : ∀ v, (entry.1, v) ∉ front := fun v hv =>
    (List.pairwise_append.1 hkeys).2.2 _ hv entry List.mem_cons_self rfl
  obtain ⟨index, hplace, hempty, -⟩ := hs.exists_vacant (by omega) hnew
  refine ⟨index, hempty, hplace, (h.searchedExactly_halfway heq).findsPlace hplace, ?_⟩
  rw [halfway_append, settle, hplace]
  rfl

/-! ## The table that has grown -/

/-- A table that has grown, in comparison with the table before. -/
structure GrownFrom (t after : Table) : Prop where
  capacity_eq : after.capacity = if t.capacity = 0 then 8 else 2 * t.capacity
  no_tombstone : ∀ i : Nat, after.buckets[i]? ≠ some .tombstone
  used_eq : after.used = t.entries.length
  size_eq : after.size = t.entries.length
  get?_eq : ∀ key, after.get? key = t.get? key
  /-- There are the same entries as before, each of them once. -/
  entries_perm : after.entries.Perm t.entries
  /-- The entries have been settled one after the other, -/
  buckets_eq : after.buckets = t.halfway t.entries
  /-- and each of them in a bucket that was still empty, at which its search ended. -/
  settles : ∀ front entry rest, t.entries = front ++ entry :: rest → t.SettlesNext front entry

theorem Layout.grown_cases (h : t.Layout) :
    grown t.capacity = if t.capacity = 0 then 8 else 2 * t.capacity := by
  rcases h.capacity_cases with hzero | ⟨height, -⟩
  · rw [hzero]
    rfl
  · have hdouble : grown t.capacity = t.capacity * 2 := if_neg (Nat.not_lt.2 height)
    rw [hdouble, if_neg (by omega), Nat.mul_comm]

theorem Layout.grownFrom (h : t.Layout) : GrownFrom t (t.rebuild (grown t.capacity)) where
  capacity_eq := h.capacity_rebuild.trans h.grown_cases
  no_tombstone := h.settled_grown.no_tombstone
  used_eq := rfl
  size_eq := h.length_entries.symm
  get?_eq key := by
    apply Option.ext
    intro v
    rw [get?_eq_some_iff h.rebuild, get?_eq_some_iff h, h.mem_entries_rebuild]
  entries_perm :=
    (List.perm_ext_iff_of_nodup h.rebuild.nodup_entries h.nodup_entries).2
      fun _ => h.mem_entries_rebuild
  buckets_eq := buckets_rebuild t
  settles _ _ _ heq := h.settlesNext heq

/-- **Growing loses nothing.** When an insertion into a table that can be made finds it too full, the
table that it goes on with has twice as many buckets, or the first ones, and no tombstones. It has
the entries of the old table and nothing else, and counts nothing else. Each entry was put into a
bucket that was still empty, and each search for such a bucket has ended. -/
theorem Built.grows_losslessly (hb : t.Built) (hfull : overloaded (t.used + 1) t.capacity = true) :
    t.reserve = t.rebuild (grown t.capacity) ∧ GrownFrom t (t.rebuild (grown t.capacity)) :=
  ⟨reserve_of_overloaded hfull, hb.layout.grownFrom⟩

/-! ## A table worn out by removals -/

/-- A key whose home is the last bucket of eight, and of sixteen. -/
def lastly (slot : Nat) : Symbol := { str := ⟨slot⟩, hash := 15 }

/-- Six keys with two homes have been inserted, and three of them have been removed. The keys that
are left lie behind tombstones, and around the end of the array from their home. -/
def worn : Table :=
  [lastly 0, neighbour 0, neighbour 1].foldl (fun t key => (t.erase key).1)
    ([neighbour 0, neighbour 1, neighbour 2, lastly 0, lastly 1, lastly 2].foldl
      (fun t key => (t.insert key (.str key)).1) ∅)

theorem built_worn : worn.Built :=
  .erase _ (.erase _ (.erase _ (.insert _ _ (.insert _ _ (.insert _ _ (.insert _ _
    (.insert _ _ (.insert _ _ .empty))))))))

/-- The tombstones are left behind. Of the three entries the first is settled in the first bucket, and
so the search for the last goes on beyond it. -/
theorem grows_losslessly_worn :
    (worn.rebuild 16).capacity = 16 ∧ (worn.rebuild 16).used = 3 ∧ (worn.rebuild 16).size = 3 ∧
    (∀ i : Nat, (worn.rebuild 16).buckets[i]? ≠ some .tombstone) ∧
    (worn.rebuild 16).get? (lastly 2) = some (.str (lastly 2)) ∧
    (worn.rebuild 16).get? (lastly 0) = none ∧
    FindsPlace (worn.halfway [(neighbour 2, .str (neighbour 2)), (lastly 1, .str (lastly 1))])
      (lastly 2) (.vacant 1) := by
  have hfull : overloaded (worn.used + 1) worn.capacity = true := by decide +kernel
  have hentries : worn.entries = [(neighbour 2, .str (neighbour 2)), (lastly 1, .str (lastly 1)),
      (lastly 2, .str (lastly 2))] := by decide +kernel
  have hcapacity : worn.capacity = 8 := by decide +kernel
  obtain ⟨-, hgrown⟩ := built_worn.grows_losslessly hfull
  rw [show grown worn.capacity = 16 by decide +kernel] at hgrown
  have hcount : worn.entries.length = 3 := by rw [hentries]; rfl
  have hplace : locate?
      (worn.halfway [(neighbour 2, .str (neighbour 2)), (lastly 1, .str (lastly 1))]) (lastly 2) =
        some (.vacant 1) := by decide +kernel
  obtain ⟨index, -, hplace', hfinds, -⟩ := hgrown.settles [_, _] _ [] hentries
  rw [hplace] at hplace'
  cases hplace'
  exact ⟨hgrown.capacity_eq.trans (by rw [hcapacity]; rfl), hgrown.used_eq.trans hcount,
    hgrown.size_eq.trans hcount, hgrown.no_tombstone,
    (hgrown.get?_eq _).trans (by decide +kernel), (hgrown.get?_eq _).trans (by decide +kernel),
    hfinds⟩

end Table

end ObjectHeap

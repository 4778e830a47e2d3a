import ObjectHeap.Proofs.Heap.Allocator

/-!
# The slots that a collection looks up

A slot that does not exist is treated as an empty one (`cell?`), and a collection must not depend on
that. Which slots it looks up is told twice. `Consults` tells it of heaps: the slots that tracing
takes off the grey stack, those that the objects in them refer to, and those of the interned
symbols. The operations tell it themselves: written with looking up as a parameter and run with an
account of the slots (`note`), tracing and the pruning of strings give what they give otherwise, and
the slots in the account are the slots in `Consults` (`notes_consults`).

If every reference that an object holds is to a slot that exists, then so is every slot that a
collection looks up (`Consults.lt_size`), and this is so in every run in which objects are given
references that have been handed out (`History.notes_lt_size`). The sweep goes over the slots that
exist, and looks up no others.
-/

set_option autoImplicit false

namespace ObjectHeap

/-! ## Operations that look slots up -/

section Keeping

variable {m : Type → Type} [Monad m] (keep : Symbol → m Bool)

/-- Whether the bucket is an entry whose key is not to be kept. -/
def Bucket.isStaleBy : Bucket → m Bool
  | .entry key _ => return !(← keep key)
  | .empty | .tombstone => return false

/-- Removes every key that is not to be kept. Also answers how many there were. -/
def Table.pruneBy (t : Table) : m (Table × Nat) := do
  let stale ← t.buckets.toList.mapM (Bucket.isStaleBy keep)
  let kept := List.zipWith (fun b gone => if gone then .tombstone else b) t.buckets.toList stale
  return ({ t with buckets := kept.toArray, size := t.size - stale.count true },
    stale.count true)

end Keeping

/-- A table can be pruned by telling first of each bucket whether it is stale. -/
theorem Table.prune_eq (t : Table) (keep : Symbol → Bool) : t.prune keep =
    ({ t with
        buckets := (List.zipWith (fun b gone => if gone then .tombstone else b) t.buckets.toList
          (t.buckets.toList.map (Bucket.isStale keep))).toArray
        size := t.size - (t.buckets.toList.map (Bucket.isStale keep)).count true },
      (t.buckets.toList.map (Bucket.isStale keep)).count true) := by
  have hcount : (t.buckets.toList.map (Bucket.isStale keep)).count true =
      t.buckets.countP (Bucket.isStale keep) := by
    rw [List.count_eq_countP, List.countP_map, ← Array.countP_toList]
    congr 1
    ext b
    simp
  have hbuckets : (t.buckets.map fun b => if b.isStale keep then .tombstone else b) =
      (List.zipWith (fun b gone => if gone then .tombstone else b) t.buckets.toList
        (t.buckets.toList.map (Bucket.isStale keep))).toArray := by
    rw [List.zipWith_map_right, List.zipWith_self, ← Array.toList_map, Array.toArray_toList]
  rw [Table.prune, hcount, hbuckets]

namespace Heap

section Looking

variable {m : Type → Type} [Monad m] (look : Heap → Nat → m (Option Cell))

/-- Marks the object in a slot. -/
def markBy (h : Heap) (slot : Nat) : m Heap := do
  match ← look h slot with
  | some c =>
    if c.marked then return h
    else
      return { h with
        cells := h.cells.setIfInBounds slot (some { c with marked := true })
        grey := slot :: h.grey }
  | none => return h

/-- Marks the objects in several slots, one after the other. -/
def markAllBy (h : Heap) (slots : List Nat) : m Heap := slots.foldlM (markBy look) h

/-- Marks what the object in a slot refers to, while the object is out of its slot. -/
def blackenBy (h : Heap) (slot : Nat) : m Heap := do
  match ← look h slot with
  | some c => return (← markAllBy look (h.setCell slot none) c.object.targets).setCell slot (some c)
  | none => return h

/-- Takes objects off the grey stack and marks what they refer to, so many times at most. -/
def traceBy : (turns : Nat) → Heap → m Heap
  | 0, h => return h
  | turns + 1, h =>
    match h.grey with
    | [] => return h
    | slot :: grey => do traceBy turns (← blackenBy look { h with grey } slot)

/-- Drops the interned strings that are not marked. Also answers how many. -/
def dropStringsBy (h : Heap) : m (Heap × Nat) := do
  let (strings, dropped) ← h.strings.pruneBy fun key =>
    return (← look h key.str.slot).any Cell.marked
  return ({ h with strings }, dropped)

end Looking

/-! ## An account of slots -/

/-- Something that looks slots up, with the slots so far. -/
abbrev Noting (α : Type) : Type := StateM (List Nat) α

/-- Looks a slot up and notes it. -/
def note (h : Heap) (slot : Nat) : Noting (Option Cell) :=
  fun noted => (h.cell? slot, noted ++ [slot])

section Notes

variable {α β : Type}

/-- It has this result, and looks up these slots in this order. -/
def Notes (x : Noting α) (a : α) (slots : List Nat) : Prop :=
  ∀ noted, x.run noted = (a, noted ++ slots)

theorem Notes.pure (a : α) : Notes (Pure.pure a) a [] :=
  fun _ => by rw [List.append_nil]; rfl

theorem Notes.bind {x : Noting α} {f : α → Noting β} {a : α} {b : β} {slots later : List Nat}
    (hx : Notes x a slots) (hf : Notes (f a) b later) : Notes (x >>= f) b (slots ++ later) := by
  intro noted
  rw [StateT.run_bind, hx, ← List.append_assoc]
  exact hf (noted ++ slots)

/-- Nothing is looked up to go on with a result. -/
theorem Notes.map {x : Noting α} {a : α} {slots : List Nat} (hx : Notes x a slots) (f : α → β) :
    Notes (x >>= fun a => Pure.pure (f a)) (f a) slots := by
  rw [← List.append_nil slots]
  exact hx.bind (.pure (f a))

theorem notes_note (h : Heap) (slot : Nat) : Notes (note h slot) (h.cell? slot) [slot] :=
  fun _ => rfl

end Notes

variable {h : Heap}

theorem notes_mark (h : Heap) (slot : Nat) : Notes (h.markBy note slot) (h.mark slot) [slot] := by
  unfold markBy mark
  show Notes _ _ ([slot] ++ [])
  refine (notes_note h slot).bind ?_
  cases h.cell? slot with
  | none => exact .pure h
  | some c =>
    dsimp only
    split
    · exact .pure h
    · exact .pure _

theorem notes_markAll (h : Heap) (slots : List Nat) :
    Notes (h.markAllBy note slots) (h.markAll slots) slots := by
  unfold markAllBy markAll
  induction slots generalizing h with
  | nil => exact .pure h
  | cons slot rest ih =>
    rw [List.foldlM_cons]
    exact (notes_mark h slot).bind (ih (h.mark slot))

/-- The slot of the object is looked up, and then those that the object refers to. -/
theorem notes_blacken (h : Heap) (slot : Nat) :
    Notes (h.blackenBy note slot) (h.blacken slot) (slot :: h.targetsAt slot) := by
  unfold blackenBy blacken targetsAt object?
  refine (notes_note h slot).bind ?_
  cases h.cell? slot with
  | none => exact .pure h
  | some c => exact (notes_markAll (h.setCell slot none) c.object.targets).map _

/-! ### Pruning -/

theorem notes_isStale (h : Heap) (b : Bucket) :
    Notes (b.isStaleBy fun key => return (← note h key.str.slot).any Cell.marked)
      (b.isStale fun key => h.isMarked key.str.slot)
      (b.binding?.toList.map fun e => e.1.str.slot) := by
  cases b with
  | entry key v => exact ((notes_note h key.str.slot).map _).map _
  | empty | tombstone => exact .pure false

theorem notes_mapM_isStale (h : Heap) (buckets : List Bucket) :
    Notes (buckets.mapM
        (Bucket.isStaleBy fun key => return (← note h key.str.slot).any Cell.marked))
      (buckets.map (Bucket.isStale fun key => h.isMarked key.str.slot))
      ((buckets.filterMap Bucket.binding?).map fun e => e.1.str.slot) := by
  induction buckets with
  | nil => exact .pure []
  | cons b rest ih =>
    have hslots : ((b :: rest).filterMap Bucket.binding?).map (fun e => e.1.str.slot) =
        b.binding?.toList.map (fun e => e.1.str.slot) ++
          (rest.filterMap Bucket.binding?).map fun e => e.1.str.slot := by
      cases b <;> rfl
    rw [List.mapM_cons, hslots]
    exact (notes_isStale h b).bind (ih.map _)

/-- The strings of the interned symbols are looked up. -/
theorem notes_dropStrings (h : Heap) : Notes (h.dropStringsBy note) h.dropStrings
    (h.strings.entries.map fun e => e.1.str.slot) := by
  unfold dropStringsBy dropStrings Table.pruneBy
  rw [Table.prune_eq, bind_assoc]
  exact (notes_mapM_isStale h h.strings.buckets.toList).map _

/-! ## What a collection looks up -/

/-- A collection looks a slot up: tracing those that it takes off the grey stack, and those that the
objects in them refer to; and when the stack is empty, the pruning of the interned strings those of
the symbols. The sweep goes over the slots that exist. -/
inductive Consults : Heap → Nat → Prop
  | taken {h : Heap} {slot : Nat} {grey : List Nat} : h.grey = slot :: grey → Consults h slot
  | target {h : Heap} {slot target : Nat} {grey : List Nat} : h.grey = slot :: grey →
    target ∈ h.targetsAt slot → Consults h target
  | later {h : Heap} {slot other : Nat} {grey : List Nat} : h.grey = slot :: grey →
    Consults (h.advance slot grey) other → Consults h other
  | symbol {h : Heap} {key : Symbol} {v : Value} : h.grey = [] → (key, v) ∈ h.strings.entries →
    Consults h key.str.slot

theorem consults_nil (hg : h.grey = []) {slot : Nat} :
    h.Consults slot ↔ slot ∈ h.strings.entries.map fun e => e.1.str.slot := by
  rw [List.mem_map]
  constructor
  · intro hc
    cases hc with
    | symbol _ hkey => exact ⟨_, hkey, rfl⟩
    | taken hg' | target hg' | later hg' => rw [hg] at hg'; cases hg'
  · rintro ⟨⟨key, v⟩, hkey, rfl⟩
    exact .symbol hg hkey

theorem consults_cons {first : Nat} {grey : List Nat} (hg : h.grey = first :: grey) {slot : Nat} :
    h.Consults slot ↔
      slot ∈ first :: h.targetsAt first ∨ (h.advance first grey).Consults slot := by
  rw [List.mem_cons, or_assoc]
  constructor
  · intro hc
    cases hc with
    | taken hg' => rw [hg] at hg'; cases hg'; exact .inl rfl
    | target hg' htarget => rw [hg] at hg'; cases hg'; exact .inr (.inl htarget)
    | later hg' hlater => rw [hg] at hg'; cases hg'; exact .inr (.inr hlater)
    | symbol hg' => rw [hg] at hg'; cases hg'
  · rintro (rfl | htarget | hlater)
    · exact .taken hg
    · exact .target hg htarget
    · exact .later hg hlater

theorem traceBy_nil (hg : h.grey = []) (turns : Nat) :
    h.traceBy note turns = (Pure.pure h : Noting Heap) := by
  cases turns with
  | zero => rfl
  | succ turns => rw [traceBy, hg]

/-- **The slots that a collection looks up.** Tracing and pruning with an account do what they do
without one, and the slots in the account are those that `Consults` tells. -/
theorem notes_consults {turns : Nat} (hle : h.pending ≤ turns) :
    ∃ slots, Notes (h.traceBy note turns >>= fun traced => traced.dropStringsBy note)
      h.trace.1.dropStrings slots ∧ ∀ slot, slot ∈ slots ↔ h.Consults slot := by
  induction turns generalizing h with
  | zero =>
    have hg : h.grey = [] := by
      rw [← List.length_eq_zero_iff]
      unfold pending at hle
      omega
    rw [traceBy_nil hg, pure_bind, trace_nil hg]
    exact ⟨_, notes_dropStrings h, fun _ => (consults_nil hg).symm⟩
  | succ turns ih =>
    cases hg : h.grey with
    | nil =>
      rw [traceBy_nil hg, pure_bind, trace_nil hg]
      exact ⟨_, notes_dropStrings h, fun _ => (consults_nil hg).symm⟩
    | cons first grey =>
      have hpending : (h.advance first grey).pending ≤ turns :=
        Nat.le_of_lt_succ (Nat.lt_of_lt_of_le (pending_blacken_lt hg) hle)
      obtain ⟨later, hlater, hmem⟩ := ih hpending
      refine ⟨first :: h.targetsAt first ++ later, ?_, fun slot => ?_⟩
      · rw [traceBy, hg, bind_assoc, trace_cons hg]
        exact (notes_blacken { h with grey } first).bind hlater
      · rw [List.mem_append, hmem, consults_cons hg]

/-- If every reference that an object holds is to a slot that exists, then so is every slot that a
collection looks up. -/
theorem Consults.lt_size {slot : Nat} (hc : h.Consults slot) (ht : h.Traced) (ha : h.Attached)
    (htargets : ∀ slot, ∀ target ∈ h.targetsAt slot, target < h.cells.size) :
    slot < h.cells.size := by
  induction hc with
  | @taken h slot grey hg =>
    have hmem : slot ∈ h.grey := by rw [hg]; exact List.mem_cons_self
    exact (occupied_of_isMarked (ht.marked slot hmem)).lt_size
  | target hg htarget => exact htargets _ _ htarget
  | @later h slot other grey hg _ ih =>
    have hpaint := repainted_advance h slot grey
    rw [← hpaint.size_eq] at htargets ⊢
    refine ih (ht.advance hg) (ha.mono hpaint.strings_eq fun _ => hpaint.occupied_iff.2) ?_
    intro s
    rw [hpaint.targetsAt_eq]
    exact htargets s
  | symbol _ hkey => exact (ha _ _ hkey).lt_size

section Runs

variable {overwrites : Bool} {policy : Policy} {past : List Heap} {handed : List Nat}
  {journal : List Event}

/-- In a run whose objects hold only references that have been handed out, a collection looks up no
slot that does not exist. -/
theorem History.consults_lt_size (hh : History overwrites policy (h :: past) handed journal)
    (hheld : ∀ slot o target, h.object? slot = some o → o.RefersTo target → target ∈ handed)
    {slot : Nat} (hc : h.Consults slot) : slot < h.cells.size := by
  refine hc.lt_size hh.arises.sound.tidy.traced hh.arises.attached fun s target htarget => ?_
  obtain ⟨o, ho, href⟩ := mem_targetsAt.1 htarget
  exact hh.handed_lt target (hheld s o target ho href)

/-- So it is never to the point that such a slot is treated as an empty one. -/
theorem History.notes_lt_size (hh : History overwrites policy (h :: past) handed journal)
    (hheld : ∀ slot o target, h.object? slot = some o → o.RefersTo target → target ∈ handed) :
    ∃ slots, Notes (h.traceBy note h.pending >>= fun traced => traced.dropStringsBy note)
      h.trace.1.dropStrings slots ∧ ∀ slot ∈ slots, slot < h.cells.size := by
  obtain ⟨slots, hnotes, hmem⟩ := notes_consults (Nat.le_refl h.pending)
  exact ⟨slots, hnotes, fun slot hslot => hh.consults_lt_size hheld ((hmem slot).1 hslot)⟩

end Runs

end Heap

end ObjectHeap

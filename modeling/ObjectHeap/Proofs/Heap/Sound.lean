import ObjectHeap.Heap.Run
import ObjectHeap.Proofs.Heap.Accounts
import ObjectHeap.Proofs.Table.Bindings

/-!
# Sound heaps

What is true of every heap that arises, whatever is interned, allocated, marked, edited and
collected in whatever order: the free stack lists the empty slots, the grey stack lists the marked
ones, the bytes are the charges of all objects, and all tables are tables that can be made. No
operation can do without any of these. An allocation into a slot that is not empty would take a mark
from under the grey stack; a sweep of bytes that were never charged would stop the accounts at zero;
a table without an empty bucket would not find its keys.

Each operation keeps each of the parts, and `Arises.sound` is the induction over runs.
-/

set_option autoImplicit false

namespace ObjectHeap

namespace Heap

variable {h : Heap}

structure Sound (h : Heap) : Prop where
  slotted : h.Slotted
  tidy : h.Tidy
  balanced : h.Balanced
  tables : ∀ slot o, h.object? slot = some o → o.HasBuiltTables
  strings : h.strings.Built

theorem sound_new (policy : Policy) : (Heap.new policy).Sound where
  slotted := slotted_new policy
  tidy := (clean_new policy).tidy
  balanced := balanced_new policy
  tables slot o ho := by
    rw [object?_new] at ho
    cases ho
  strings := .empty

theorem Sound.layout_methods (hs : h.Sound) {slot : Nat} {c : Class}
    (ho : h.object? slot = some (.cls c)) : c.methods.Layout :=
  (show c.methods.Built from hs.tables slot _ ho).layout

theorem Sound.layout_fields (hs : h.Sound) {slot : Nat} {i : Instance}
    (ho : h.object? slot = some (.inst i)) : i.fields.Layout :=
  (show i.fields.Built from hs.tables slot _ ho).layout

theorem Sound.mark (hs : h.Sound) (slots : List Nat) : (h.markAll slots).Sound where
  slotted := (repainted_markAll h slots).slotted hs.slotted
  tidy := hs.tidy.markAll slots
  balanced := (repainted_markAll h slots).balanced hs.balanced
  tables slot o ho := hs.tables slot o (by rwa [(repainted_markAll h slots).object?_eq] at ho)
  strings := by rw [(repainted_markAll h slots).strings_eq]; exact hs.strings

theorem Sound.place (hs : h.Sound) {o : Object} (ho : o.HasBuiltTables) :
    (h.place o).1.Sound where
  slotted := hs.slotted.place
  tidy := hs.tidy.place hs.slotted
  balanced := hs.balanced.place hs.slotted o
  tables slot o' ho' := by
    rcases of_object?_place hs.slotted ho' with ⟨-, rfl⟩ | ⟨-, hold⟩
    · exact ho
    · exact hs.tables slot o' hold
  strings := by rw [place_strings]; exact hs.strings

theorem Sound.replace (hs : h.Sound) {k : Kind} {r : Ref k} {p : k.Payload}
    (hp : (Object.of k p).HasBuiltTables) : (h.replace r p).Sound where
  slotted := hs.slotted.replace
  tidy := hs.tidy.replace
  balanced := hs.balanced.replace
  tables slot o ho := by
    rcases of_object?_replace ho with ⟨-, rfl⟩ | ⟨-, hold⟩
    · exact hp
    · exact hs.tables slot o hold
  strings := hs.strings

theorem Sound.withStrings (hs : h.Sound) {strings : Table} (hb : strings.Built) :
    { h with strings }.Sound :=
  ⟨⟨hs.slotted.nodup, hs.slotted.mem_iff⟩, ⟨hs.tidy.nodup, hs.tidy.mem_iff⟩,
    hs.balanced.congr rfl rfl, hs.tables, hb⟩

/-! ## Adding a string -/

/-- The heap with one more string, which is interned, and its symbol. -/
def withString (h : Heap) (s : Str) : Heap × Symbol :=
  let placed := h.place (.str s)
  let symbol : Symbol := { str := ⟨placed.2⟩, hash := s.hash }
  ({ placed.1 with strings := (placed.1.strings.insert symbol .nil).1 }, symbol)

theorem internReserving_result (h : Heap) (text : String) (reserved : Nat) :
    (h.internReserving text reserved).result = (h.find? text).map fun
      | some symbol => (h, symbol)
      | none => h.withString (.ofText text reserved) := by
  simp only [internReserving, Outcome.result_bind, Outcome.result_liftM]
  rcases h.find? text with f | _ | symbol <;> rfl

/-- Interning finds the text and leaves the heap as it is, or adds a string. -/
theorem of_internReserving_eq_ok {after : Heap} {text : String} {reserved : Nat} {s : Symbol}
    (hi : (h.internReserving text reserved).result = .ok (after, s)) :
    (after = h ∧ h.find? text = .ok (some s)) ∨
      (after = (h.withString (.ofText text reserved)).1 ∧
        s = (h.withString (.ofText text reserved)).2) := by
  rw [internReserving_result] at hi
  rcases hf : h.find? text with fault | _ | found
  · rw [hf] at hi
    cases hi
  · rw [hf] at hi
    cases hi
    exact .inr ⟨rfl, rfl⟩
  · rw [hf] at hi
    cases hi
    exact .inl ⟨rfl, rfl⟩

theorem Sound.withString (hs : h.Sound) (s : Str) : (h.withString s).1.Sound :=
  have hplaced : (h.place (.str s)).1.Sound := hs.place trivial
  hplaced.withStrings (.insert _ _ hplaced.strings)

theorem Clean.withString (hc : h.Clean) (hs : h.Slotted) (s : Str) : (h.withString s).1.Clean :=
  have hplaced : (h.place (.str s)).1.Clean := hc.place hs
  ⟨hplaced.grey_eq, hplaced.unmarked⟩

/-! ## Collection -/

theorem swept_strings (h : Heap) : h.swept.strings =
    (h.strings.prune fun key => h.trace.1.isMarked key.str.slot).1 := by
  rw [← (repainted_trace h).strings_eq]
  rfl

theorem Sound.swept (hs : h.Sound) : h.swept.Sound where
  slotted := slotted_swept hs.slotted
  tidy := (clean_swept h).tidy
  balanced := hs.balanced.swept
  tables slot o ho := hs.tables slot o ((object?_swept hs.tidy.traced).1 ho).2
  strings := by rw [swept_strings]; exact .prune _ hs.strings

/-- A completed collection leaves the swept heap, apart from what only the next one looks at. -/
theorem Sound.collect (hs : h.Sound) {after : Heap} (hc : h.collect.result = .ok after) :
    after.Sound := by
  obtain ⟨threshold, -, rfl⟩ := of_collect_eq_ok hc
  have := hs.swept
  exact ⟨⟨this.slotted.nodup, this.slotted.mem_iff⟩, ⟨this.tidy.nodup, this.tidy.mem_iff⟩,
    this.balanced.congr rfl rfl, this.tables, this.strings⟩

/-! ## Runs -/

theorem Sound.step {overwrites : Bool} {after : Heap} (hs : h.Sound)
    (hstep : Step overwrites h after) : after.Sound := by
  cases hstep with
  | intern hi =>
    rcases of_internReserving_eq_ok hi with ⟨rfl, -⟩ | ⟨rfl, -⟩
    · exact hs
    · exact hs.withString _
  | allocate hp ha => cases ha; exact hs.place hp
  | mark slot => exact hs.mark [slot]
  | edit q _ hq ha =>
    obtain ⟨-, rfl⟩ := of_access_eq_ok ha
    exact hs.replace hq
  | collect hc => exact hs.collect hc

/-- To mark slots is to mark one after the other. -/
theorem Arises.markAll {overwrites : Bool} {policy : Policy} (ha : h.Arises overwrites policy)
    (slots : List Nat) : (h.markAll slots).Arises overwrites policy := by
  induction slots generalizing h with
  | nil => exact ha
  | cons slot rest ih => exact ih (ha.step (.mark slot))

/-- Every heap that arises is sound. -/
theorem Arises.sound {overwrites : Bool} {policy : Policy} (ha : h.Arises overwrites policy) :
    h.Sound := by
  induction ha with
  | new => exact sound_new policy
  | step _ hstep ih => exact ih.step hstep

/-- No operation changes the policy. -/
theorem Step.policy_eq {overwrites : Bool} {after : Heap} (hstep : Step overwrites h after) :
    after.policy = h.policy := by
  cases hstep with
  | intern hi =>
    rcases of_internReserving_eq_ok hi with ⟨rfl, -⟩ | ⟨rfl, -⟩
    · rfl
    · exact (place_schedule h _).1
  | allocate _ hok => cases hok; exact (place_schedule h _).1
  | mark slot => exact (repainted_mark h slot).policy_eq
  | edit _ _ _ ha =>
    obtain ⟨-, rfl⟩ := of_access_eq_ok ha
    rfl
  | collect hc =>
    obtain ⟨threshold, -, rfl⟩ := of_collect_eq_ok hc
    exact swept_policy h

theorem Arises.policy_eq {overwrites : Bool} {policy : Policy}
    (ha : h.Arises overwrites policy) : h.policy = policy := by
  induction ha with
  | new => rfl
  | step _ hstep ih => exact hstep.policy_eq.trans ih

end Heap

end ObjectHeap

import ObjectHeap.Proofs.Table.Rebuilding

/-!
# Every search for a key has its answer

The operations of a table are written here once more, with the search for a key as a parameter that
may have effects, and with the guards that keep them from searching where nothing can be found. Run
with a search that keeps an account of the arrays that it is asked about (`consult`), each of them
gives what the operation gives, and the account lists all searches of the operation, those on the
way of growing among them.

Such an array always has buckets, and in it every key has its place. So no operation searches an
array without buckets, no search goes on for ever, and what it answers is right
(`Built.consults_exactly`).
-/

set_option autoImplicit false

namespace ObjectHeap

namespace Table

/-! ## Operations that search -/

section Searching

variable {m : Type → Type} [Monad m] (search : Array Bucket → Symbol → m Place)

/-- The value of a key. Nothing is searched where no bucket is in use. -/
def getBy (t : Table) (key : Symbol) : m (Option Value) :=
  if t.used = 0 then pure none
  else do
    match ← search t.buckets key with
    | .held _ value => return some value
    | .reusable _ | .vacant _ => return none

/-- Puts an entry at the place that the search answers. -/
def settleBy (buckets : Array Bucket) (entry : Symbol × Value) : m (Array Bucket) := do
  let place ← search buckets entry.1
  return buckets.setIfInBounds place.index (.entry entry.1 entry.2)

/-- Makes room for one more key. -/
def reserveBy (t : Table) : m Table :=
  if overloaded (t.used + 1) t.capacity then do
    let buckets ← t.entries.foldlM (settleBy search)
      (Array.replicate (grown t.capacity) .empty)
    return { t with buckets, used := t.entries.length }
  else return t

/-- Binds a key to a value. Also answers whether the key is new. -/
def insertBy (t : Table) (key : Symbol) (value : Value) : m (Table × Bool) := do
  let t ← reserveBy search t
  let put (index : Nat) := t.buckets.setIfInBounds index (.entry key value)
  match ← search t.buckets key with
  | .held index _ => return ({ t with buckets := put index }, false)
  | .reusable index => return ({ t with buckets := put index, size := t.size + 1 }, true)
  | .vacant index =>
    return ({ buckets := put index, used := t.used + 1, size := t.size + 1 }, true)

/-- Removes a key. Also answers whether it was there. -/
def eraseBy (t : Table) (key : Symbol) : m (Table × Bool) :=
  if t.used = 0 then pure (t, false)
  else do
    match ← search t.buckets key with
    | .held index _ =>
      return ({ t with buckets := t.buckets.setIfInBounds index .tombstone, size := t.size - 1 },
        true)
    | .reusable _ | .vacant _ => return (t, false)

/-- Inserts every entry of another table. -/
def mergeBy (t other : Table) : m Table :=
  other.entries.foldlM (fun t entry => do return (← insertBy search t entry.1 entry.2).1) t

end Searching

/-! ## An account of searches -/

/-- Something that searches, with the arrays that have been searched so far. It has no result if a
search has none. -/
abbrev Consultation (α : Type) : Type := StateT (List (Array Bucket)) Option α

/-- Searches an array for a key and notes the array. -/
def consult (buckets : Array Bucket) (key : Symbol) : Consultation Place :=
  fun noted => (locate? buckets key).map fun place => (place, noted ++ [buckets])

section Consults

variable {α β : Type}

/-- It has this result, and every array that is searched for it has buckets and a place for every
key. -/
def Consults (x : Consultation α) (a : α) : Prop :=
  ∀ noted, ∃ searched, x.run noted = some (a, noted ++ searched) ∧
    ∀ buckets ∈ searched, SearchedExactly buckets

theorem Consults.pure (a : α) : Consults (Pure.pure a) a :=
  fun noted => ⟨[], by rw [List.append_nil]; rfl, fun _ h => absurd h List.not_mem_nil⟩

theorem Consults.bind {x : Consultation α} {f : α → Consultation β} {a : α} {b : β}
    (hx : Consults x a) (hf : Consults (f a) b) : Consults (x >>= f) b := by
  intro noted
  obtain ⟨first, hfirst, hexact⟩ := hx noted
  obtain ⟨second, hsecond, hexact'⟩ := hf (noted ++ first)
  refine ⟨first ++ second, ?_, fun buckets hmem => ?_⟩
  · rw [StateT.run_bind, hfirst]
    exact hsecond.trans (by rw [List.append_assoc])
  · exact (List.mem_append.1 hmem).elim (hexact buckets) (hexact' buckets)

variable {buckets : Array Bucket} {key : Symbol} {place : Place}

theorem SearchedExactly.consults (hb : SearchedExactly buckets)
    (hplace : locate? buckets key = some place) : Consults (consult buckets key) place := by
  intro noted
  refine ⟨[buckets], ?_, fun b hmem => (List.mem_singleton.1 hmem).symm ▸ hb⟩
  show (locate? buckets key).map _ = _
  rw [hplace]
  rfl

end Consults

/-! ## Every operation -/

variable {t : Table} {key : Symbol} {value : Value}

theorem Layout.capacity_pos (h : t.Layout) (hused : t.used ≠ 0) : 0 < t.capacity := by
  have hload := h.load
  omega

theorem Layout.entries_eq_nil (h : t.Layout) (hused : t.used = 0) : t.entries = [] := by
  have hle := h.size_le_used
  rw [← List.length_eq_zero_iff, h.length_entries]
  omega

theorem Layout.get?_of_unused (h : t.Layout) (hused : t.used = 0) : t.get? key = none := by
  rw [get?_eq_none_iff h, h.entries_eq_nil hused]
  exact fun _ => List.not_mem_nil

theorem Layout.consults_get (h : t.Layout) (key : Symbol) :
    Consults (t.getBy consult key) (t.get? key) := by
  unfold getBy
  split
  · next hused =>
    rw [h.get?_of_unused hused]
    exact .pure none
  · next hused =>
    have hexact := h.searchedExactly (h.capacity_pos hused)
    obtain ⟨place, hplace, -⟩ := hexact.2 key
    refine .bind (hexact.consults hplace) ?_
    rw [get?, hplace]
    cases place with
    | held index v => exact .pure _
    | reusable index | vacant index => exact .pure _

theorem Layout.consults_erase (h : t.Layout) (key : Symbol) :
    Consults (t.eraseBy consult key) (t.erase key) := by
  unfold eraseBy
  split
  · next hused =>
    rw [erase_of_absent (h.get?_of_unused hused)]
    exact .pure _
  · next hused =>
    have hexact := h.searchedExactly (h.capacity_pos hused)
    obtain ⟨place, hplace, -⟩ := hexact.2 key
    refine .bind (hexact.consults hplace) ?_
    rw [Table.erase, hplace]
    cases place with
    | held index v => exact .pure _
    | reusable index | vacant index => exact .pure _

/-- From a moment in the middle of growing the entries that are left are settled one by one. -/
theorem Layout.consults_settle (h : t.Layout) {front rest : List (Symbol × Value)}
    (heq : t.entries = front ++ rest) :
    Consults (rest.foldlM (settleBy consult) (t.halfway front)) (t.halfway t.entries) := by
  induction rest generalizing front with
  | nil =>
    rw [heq, List.append_nil]
    exact .pure _
  | cons entry rest ih =>
    have hexact := h.searchedExactly_halfway heq
    obtain ⟨index, -, hplace, -, hnext⟩ := h.settlesNext heq
    have hsettle : Consults (settleBy consult (t.halfway front) entry)
        (t.halfway (front ++ [entry])) := by
      refine .bind (hexact.consults hplace) ?_
      rw [hnext]
      exact .pure _
    rw [List.foldlM_cons]
    exact hsettle.bind (ih (by rw [heq, List.append_assoc]; rfl))

theorem Layout.consults_reserve (h : t.Layout) : Consults (t.reserveBy consult) t.reserve := by
  unfold reserveBy
  split
  · next hfull =>
    rw [reserve_of_overloaded hfull]
    have hsettled : Consults (t.entries.foldlM (settleBy consult)
        (Array.replicate (grown t.capacity) .empty)) (t.halfway t.entries) :=
      h.consults_settle (List.nil_append _).symm
    exact hsettled.bind (.pure _)
  · next hroom =>
    rw [reserve_of_room hroom]
    exact .pure t

theorem Layout.consults_insert (h : t.Layout) (key : Symbol) (value : Value) :
    Consults (t.insertBy consult key value) (t.insert key value) := by
  have hroom := h.room_reserve
  have hexact := h.reserve.searchedExactly (by omega)
  obtain ⟨place, hplace, -⟩ := hexact.2 key
  unfold insertBy
  refine .bind h.consults_reserve (.bind (hexact.consults hplace) ?_)
  simp only [Table.insert, hplace]
  cases place with
  | held index v => exact .pure _
  | reusable index => exact .pure _
  | vacant index => exact .pure _

theorem Layout.consults_merge (h : t.Layout) (other : Table) :
    Consults (t.mergeBy consult other) (t.merge other) := by
  unfold mergeBy Table.merge
  induction other.entries generalizing t with
  | nil => exact .pure t
  | cons entry rest ih =>
    rw [List.foldlM_cons, List.foldl_cons]
    exact .bind (.bind (h.consults_insert entry.1 entry.2) (.pure _)) (ih h.insert)

/-- **Every search for a key has its answer.** In a table that can be made and has buckets, and in
every array on the way of its growing, the search for any key ends, after as many buckets as there
are at most, at the place of the key. The operations of the table search arrays that are like this
and no others, and with the places that they are given they do what they are to do. -/
theorem Built.consults_exactly (hb : t.Built) :
    (0 < t.capacity → SearchedExactly t.buckets) ∧
    (∀ front rest, t.entries = front ++ rest → SearchedExactly (t.halfway front)) ∧
    (∀ key, Consults (t.getBy consult key) (t.get? key)) ∧
    (∀ key, Consults (t.eraseBy consult key) (t.erase key)) ∧
    (∀ key value, Consults (t.insertBy consult key value) (t.insert key value)) ∧
    ∀ other, Consults (t.mergeBy consult other) (t.merge other) := by
  have h := hb.layout
  exact ⟨h.searchedExactly, fun _ _ heq => h.searchedExactly_halfway heq, h.consults_get,
    h.consults_erase, h.consults_insert, h.consults_merge⟩

/-! ## Beyond tombstones -/

/-- The search for a key that is there goes on beyond three tombstones, around the end of the array.
A key that is not there is given the first of them. To insert that key the table has to grow. -/
theorem consults_exactly_worn :
    FindsPlace worn.buckets (lastly 2) (.held 4 (.str (lastly 2))) ∧
    FindsPlace worn.buckets (lastly 9) (.reusable 7) ∧
    Consults (worn.insertBy consult (lastly 9) .nil) (worn.insert (lastly 9) .nil) ∧
    worn.capacity = 8 ∧ (worn.insert (lastly 9) .nil).1.capacity = 16 := by
  obtain ⟨hbuckets, -, -, -, hinsert, -⟩ := built_worn.consults_exactly
  have hexact := hbuckets (by decide +kernel)
  exact ⟨hexact.findsPlace (by decide +kernel), hexact.findsPlace (by decide +kernel),
    hinsert _ _, by decide +kernel, by decide +kernel⟩

end Table

end ObjectHeap

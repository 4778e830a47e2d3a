import ObjectHeap.Heap.Valid
import ObjectHeap.Proofs.Heap.Sound
import ObjectHeap.Proofs.Table.Content

/-!
# Interning is canonical

A symbol *spells* a text if its slot holds a string with that text and the hashes of text, string
and symbol are one. In a canonical heap every interned symbol spells a text, and no two spell the
same. There the search by content is exact (`Canonical.find?_eq`): it meets no fault and finds the
interned symbol of the text, if there is one. So interning finds that symbol or adds exactly one.

Every operation keeps a heap canonical but one, which is to overwrite the text of a string. What an
operation has to leave alone for it is little: the objects in the slots of interned symbols
(`Canonical.of_subset`). A collection does because it drops a symbol before it releases the string.
-/

set_option autoImplicit false

namespace ObjectHeap

namespace Heap

variable {h : Heap} {key other : Symbol} {text : String}

/-- The slot of the symbol holds a string with this text, and all hashes are that of the text. -/
def Spells (h : Heap) (key : Symbol) (text : String) : Prop :=
  ∃ s : Str, h.object? key.str.slot = some (.str s) ∧ s.text = text ∧ s.hash = key.hash ∧
    key.hash = Text.hash text

theorem Spells.textOf (hs : h.Spells key text) : h.textOf key = .ok text := by
  obtain ⟨s, ho, rfl, -, -⟩ := hs
  rw [Heap.textOf, deref_of_object? (k := .str) (by decide) ho]
  rfl

theorem Spells.validSymbol (hs : h.Spells key text) : h.ValidSymbol key := by
  obtain ⟨s, ho, -, hhash, -⟩ := hs
  exact ⟨s, ho, hhash⟩

theorem Spells.text_unique {text' : String} (hs : h.Spells key text) (hs' : h.Spells key text') :
    text = text' :=
  Except.ok.inj (hs.textOf.symm.trans hs'.textOf)

/-- Whether a symbol spells a text depends only on its slot. -/
theorem Spells.congr {after : Heap} (hs : h.Spells key text)
    (ho : after.object? key.str.slot = h.object? key.str.slot) : after.Spells key text := by
  unfold Spells
  rw [ho]
  exact hs

/-- The symbol is a key of the table of interned strings. -/
def Interned (h : Heap) (key : Symbol) : Prop := ∃ v, (key, v) ∈ h.strings.entries

structure Canonical (h : Heap) : Prop where
  spelled : ∀ key, h.Interned key → ∃ text, h.Spells key text
  unique : ∀ a b text, h.Interned a → h.Interned b → h.Spells a text → h.Spells b text → a = b

/-! ## Searching -/

/-- The text of a symbol, or no text if there is none. -/
def textOrEmpty (h : Heap) (key : Symbol) : String :=
  match h.textOf key with
  | .ok text => text
  | .error _ => ""

theorem Spells.textOrEmpty (hs : h.Spells key text) : h.textOrEmpty key = text := by
  rw [Heap.textOrEmpty, hs.textOf]

/-- The search for a text meets no fault, and what it finds is the interned symbol that spells it.
-/
theorem Canonical.find?_eq (hc : h.Canonical) (hs : h.Sound) (text : String) :
    ∃ found, h.find? text = .ok found ∧
      ∀ key, found = some key ↔ h.Interned key ∧ h.Spells key text := by
  have htexts : ∀ e ∈ h.strings.entries, h.textOf e.1 = pure (h.textOrEmpty e.1) := by
    intro e he
    obtain ⟨text, hspells⟩ := hc.spelled e.1 ⟨e.2, he⟩
    rw [hspells.textOrEmpty, hspells.textOf]
    rfl
  refine ⟨h.strings.search text (Text.hash text) h.textOrEmpty,
    Table.findText?_eq_pure fun e he _ => htexts e he,
    fun key => ⟨fun hfound => ?_, fun ⟨hkey, hspells⟩ => ?_⟩⟩
  · obtain ⟨hkey, -, htext⟩ := Table.of_search_eq_some hs.strings.layout hfound
    obtain ⟨text', hspells⟩ := hc.spelled key hkey
    rw [hspells.textOrEmpty] at htext
    exact ⟨hkey, htext ▸ hspells⟩
  · obtain ⟨v, hv⟩ := hkey
    obtain ⟨s, -, -, -, hhash⟩ := id hspells
    -- The search finds a symbol of that text, and there is no other than this one.
    obtain ⟨found, hfound⟩ : ∃ found,
        h.strings.search text (Text.hash text) h.textOrEmpty = some found :=
      Table.exists_search_eq_some hs.strings.layout hv hhash hspells.textOrEmpty
    obtain ⟨hin, -, htext⟩ := Table.of_search_eq_some hs.strings.layout hfound
    obtain ⟨text', hspells'⟩ := hc.spelled found hin
    rw [hspells'.textOrEmpty] at htext
    rw [hfound, hc.unique found key text hin ⟨v, hv⟩ (htext ▸ hspells') hspells]

theorem Canonical.find?_eq_some_iff (hc : h.Canonical) (hs : h.Sound) :
    h.find? text = .ok (some key) ↔ h.Interned key ∧ h.Spells key text := by
  obtain ⟨found, hfind, hfound⟩ := hc.find?_eq hs text
  rw [hfind, ← hfound, Except.ok.injEq]

theorem Canonical.find?_eq_none_iff (hc : h.Canonical) (hs : h.Sound) :
    h.find? text = .ok none ↔ ∀ key, h.Interned key → ¬h.Spells key text := by
  obtain ⟨found, hfind, hfound⟩ := hc.find?_eq hs text
  rw [hfind, Except.ok.injEq]
  constructor
  · rintro rfl key hkey hspells
    cases (hfound key).2 ⟨hkey, hspells⟩
  · intro hnone
    cases found with
    | none => rfl
    | some key => exact absurd ((hfound key).1 rfl).2 (hnone key ((hfound key).1 rfl).1)

/-- Heaps that intern the same symbols, and in which these spell the same, find the same. -/
theorem Canonical.find?_congr {after : Heap} (hc : h.Canonical) (hs : h.Sound)
    (hc' : after.Canonical) (hs' : after.Sound)
    (hiff : ∀ key, after.Interned key ∧ after.Spells key text ↔
      h.Interned key ∧ h.Spells key text) : after.find? text = h.find? text := by
  obtain ⟨found, hfind, hfound⟩ := hc.find?_eq hs text
  obtain ⟨found', hfind', hfound'⟩ := hc'.find?_eq hs' text
  have heq : found' = found := Option.ext fun key => by rw [hfound', hfound, hiff]
  rw [hfind, hfind', heq]

/-! ## What keeps a heap canonical -/

/-- A heap stays canonical if nothing is interned and the strings that are left stay as they are. -/
theorem Canonical.of_subset {after : Heap} (hc : h.Canonical)
    (hkeys : ∀ key, after.Interned key → h.Interned key)
    (ho : ∀ key, after.Interned key → after.object? key.str.slot = h.object? key.str.slot) :
    after.Canonical where
  spelled key hkey := by
    obtain ⟨text, hspells⟩ := hc.spelled key (hkeys key hkey)
    exact ⟨text, hspells.congr (ho key hkey)⟩
  unique a b text ha hb hsa hsb :=
    hc.unique a b text (hkeys a ha) (hkeys b hb) (hsa.congr (ho a ha).symm)
      (hsb.congr (ho b hb).symm)

theorem canonical_new (policy : Policy) : (Heap.new policy).Canonical where
  spelled key hkey := by
    obtain ⟨v, hv⟩ := hkey
    cases hv
  unique a b text ha := by
    obtain ⟨v, hv⟩ := ha
    cases hv

theorem Canonical.occupied (hc : h.Canonical) (hkey : h.Interned key) :
    h.Occupied key.str.slot := by
  obtain ⟨text, s, ho, -⟩ := hc.spelled key hkey
  exact occupied_iff_object?.2 ⟨_, ho⟩

/-- No two interned symbols share a string. -/
theorem Canonical.eq_of_slot (hc : h.Canonical) {a b : Symbol} (ha : h.Interned a)
    (hb : h.Interned b) (hslot : a.str.slot = b.str.slot) : a = b := by
  obtain ⟨text, hspells⟩ := hc.spelled a ha
  obtain ⟨text', hspells'⟩ := hc.spelled b hb
  have htext : text' = text := by
    obtain ⟨s, ho, rfl, -⟩ := hspells
    obtain ⟨s', ho', rfl, -⟩ := hspells'
    rw [← hslot, ho, Option.some.injEq, Object.str.injEq] at ho'
    rw [ho']
  exact hc.unique a b text ha hb hspells (htext ▸ hspells')

theorem Canonical.markAll (hc : h.Canonical) (slots : List Nat) :
    (h.markAll slots).Canonical := by
  have hpaint := repainted_markAll h slots
  refine hc.of_subset (fun key hkey => ?_) fun key _ => hpaint.object?_eq _
  rwa [Interned, hpaint.strings_eq] at hkey

theorem Canonical.place (hc : h.Canonical) (hs : h.Sound) (o : Object) :
    (h.place o).1.Canonical := by
  have hkeys : ∀ key, (h.place o).1.Interned key → h.Interned key := by
    intro key hkey
    rwa [Interned, place_strings] at hkey
  exact hc.of_subset hkeys fun key hkey =>
    object?_place_of_occupied hs.slotted (hc.occupied (hkeys key hkey))

/-- What is not a string may be changed. -/
theorem Canonical.replace (hc : h.Canonical) {k : Kind} {r : Ref k} {p : k.Payload}
    (hk : k ≠ .str) (hr : h.object? r.slot = some (.of k p)) (q : k.Payload) :
    (h.replace r q).Canonical := by
  refine hc.of_subset (fun key hkey => hkey) ?_
  intro key hkey
  rw [object?_replace, if_neg]
  intro heq
  obtain ⟨text, s, ho, -⟩ := hc.spelled key hkey
  rw [heq, hr] at ho
  cases k with
  | str => exact hk rfl
  | cls | inst | box => cases ho

/-- A collection keeps the interned strings that can be reached, and drops the others. -/
theorem interned_swept (ht : h.Traced) :
    h.swept.Interned key ↔ h.Reach h.markedSlots key.str.slot ∧ h.Interned key := by
  simp only [Interned, swept_strings, Table.mem_entries_prune, isMarked_trace_iff ht,
    exists_and_left]

theorem Canonical.swept (hc : h.Canonical) (hs : h.Sound) : h.swept.Canonical := by
  have ht := hs.tidy.traced
  refine hc.of_subset (fun key hkey => ((interned_swept ht).1 hkey).2) ?_
  intro key hkey
  obtain ⟨hr, hin⟩ := (interned_swept ht).1 hkey
  obtain ⟨o, ho⟩ := occupied_iff_object?.1 hr.occupied
  rw [ho]
  exact (object?_swept ht).2 ⟨hr, ho⟩

theorem Canonical.collect (hc : h.Canonical) (hs : h.Sound) {after : Heap}
    (hcollect : h.collect.result = .ok after) : after.Canonical := by
  obtain ⟨threshold, -, rfl⟩ := of_collect_eq_ok hcollect
  have := hc.swept hs
  exact ⟨this.spelled, this.unique⟩

/-! ## A new string -/

section WithString

variable {s : Str}

theorem cell?_withString (hs : h.Sound) (slot : Nat) : (h.withString s).1.cell? slot =
    if slot = (h.withString s).2.str.slot then
      some { object := .str s, charge := chargeOf (.str s) }
    else h.cell? slot :=
  cell?_place hs.slotted slot

theorem withString_slot_empty (hs : h.Sound) : h.cell? (h.withString s).2.str.slot = none :=
  place_slot_empty hs.slotted

theorem object?_withString_of_occupied (hs : h.Sound) {slot : Nat} (ho : h.Occupied slot) :
    (h.withString s).1.object? slot = h.object? slot :=
  object?_place_of_occupied hs.slotted ho

theorem object?_withString_self (hs : h.Sound) :
    (h.withString s).1.object? (h.withString s).2.str.slot = some (.str s) := by
  rw [object?, cell?_withString hs, if_pos rfl]
  rfl

/-- An object that is there with a new string is that string, or was there before. -/
theorem of_object?_withString (hs : h.Sound) {slot : Nat} {o : Object}
    (ho : (h.withString s).1.object? slot = some o) :
    (slot = (h.withString s).2.str.slot ∧ o = .str s) ∨ h.object? slot = some o :=
  (of_object?_place hs.slotted ho).imp_right And.right

/-- The new symbol was not interned before, since nothing was in its slot. -/
theorem not_interned_withString (hc : h.Canonical) (hs : h.Sound) :
    ¬h.Interned (h.withString s).2 := by
  intro hkey
  obtain ⟨c, hslot⟩ := hc.occupied hkey
  rw [withString_slot_empty hs] at hslot
  cases hslot

theorem perm_strings_withString (hc : h.Canonical) (hs : h.Sound) :
    (h.withString s).1.strings.entries.Perm (((h.withString s).2, .nil) :: h.strings.entries) := by
  have hstrings : (h.withString s).1.strings = (h.strings.insert (h.withString s).2 .nil).1 := by
    rw [← place_strings (h := h) (o := .str s)]
    rfl
  rw [hstrings]
  refine Table.perm_entries_insert hs.strings.layout ?_
  rw [Table.get?_eq_none_iff hs.strings.layout]
  exact fun v hv => not_interned_withString hc hs ⟨v, hv⟩

theorem interned_withString (hc : h.Canonical) (hs : h.Sound) :
    (h.withString s).1.Interned key ↔ key = (h.withString s).2 ∨ h.Interned key := by
  simp only [Interned, (perm_strings_withString hc hs).mem_iff, List.mem_cons, Prod.mk.injEq,
    exists_or, exists_and_left, exists_eq, and_true]

theorem spells_withString_self (hs : h.Sound) (hhash : s.hash = Text.hash s.text) :
    (h.withString s).1.Spells (h.withString s).2 s.text :=
  ⟨s, object?_withString_self hs, rfl, rfl, hhash⟩

theorem spells_withString_iff (hc : h.Canonical) (hs : h.Sound) (hkey : h.Interned key) :
    (h.withString s).1.Spells key text ↔ h.Spells key text := by
  have ho := object?_withString_of_occupied (s := s) hs (hc.occupied hkey)
  exact ⟨fun hspells => hspells.congr ho.symm, fun hspells => hspells.congr ho⟩

theorem Canonical.withString (hc : h.Canonical) (hs : h.Sound) (hhash : s.hash = Text.hash s.text)
    (hnone : h.find? s.text = .ok none) : (h.withString s).1.Canonical where
  spelled key hkey := by
    rcases (interned_withString hc hs).1 hkey with rfl | hold
    · exact ⟨s.text, spells_withString_self hs hhash⟩
    · obtain ⟨text, hspells⟩ := hc.spelled key hold
      exact ⟨text, (spells_withString_iff hc hs hold).2 hspells⟩
  unique a b text ha hb hsa hsb := by
    rw [hc.find?_eq_none_iff hs] at hnone
    have hself := spells_withString_self hs hhash
    -- Two old symbols were distinct before; an old and the new one differ in what they spell.
    rcases (interned_withString hc hs).1 ha with rfl | hold
    · obtain rfl := hself.text_unique hsa
      rcases (interned_withString hc hs).1 hb with rfl | hold'
      · rfl
      · exact absurd ((spells_withString_iff hc hs hold').1 hsb) (hnone b hold')
    · rcases (interned_withString hc hs).1 hb with rfl | hold'
      · obtain rfl := hself.text_unique hsb
        exact absurd ((spells_withString_iff hc hs hold).1 hsa) (hnone a hold)
      · exact hc.unique a b text hold hold' ((spells_withString_iff hc hs hold).1 hsa)
          ((spells_withString_iff hc hs hold').1 hsb)

/-- A new string changes what is found for its own text only. -/
theorem find?_withString (hc : h.Canonical) (hs : h.Sound) (hhash : s.hash = Text.hash s.text)
    (hnone : h.find? s.text = .ok none) (text : String) : (h.withString s).1.find? text =
      if text = s.text then .ok (some (h.withString s).2) else h.find? text := by
  have hc' := hc.withString hs hhash hnone
  have hself := spells_withString_self hs hhash
  split
  · next heq =>
    rw [hc'.find?_eq_some_iff (hs.withString s), heq]
    exact ⟨(interned_withString hc hs).2 (.inl rfl), hself⟩
  · next hne =>
    refine hc.find?_congr hs hc' (hs.withString s) fun key => ⟨fun ⟨hkey, hspells⟩ => ?_,
      fun ⟨hkey, hspells⟩ => ⟨(interned_withString hc hs).2 (.inr hkey),
        (spells_withString_iff hc hs hkey).2 hspells⟩⟩
    rcases (interned_withString hc hs).1 hkey with rfl | hold
    · exact absurd (hspells.text_unique hself) hne
    · exact ⟨hold, (spells_withString_iff hc hs hold).1 hspells⟩

end WithString

/-- From one heap to another a string with this text has been allocated and interned, and nothing
else has changed in any slot or in the table of interned strings. -/
structure Gains (h : Heap) (text : String) (reserved : Nat) (after : Heap) (key : Symbol) :
    Prop where
  empty : h.cell? key.str.slot = none
  cells : ∀ slot, after.cell? slot =
    if slot = key.str.slot then some
      { object := .str (.ofText text reserved), charge := chargeOf (.str (.ofText text reserved)) }
    else h.cell? slot
  strings : after.strings.entries.Perm ((key, .nil) :: h.strings.entries)
  find : ∀ other, after.find? other = if other = text then .ok (some key) else h.find? other

/-- Interning a text answers the symbol that spells it, and if there is none it makes one. -/
theorem Canonical.intern_cases (hc : h.Canonical) (hs : h.Sound) (text : String) (reserved : Nat) :
    (∃ key, h.find? text = .ok (some key) ∧
      (h.internReserving text reserved).result = .ok (h, key)) ∨
    (h.find? text = .ok none ∧ ∃ after key,
      (h.internReserving text reserved).result = .ok (after, key) ∧
      after = (h.withString (.ofText text reserved)).1 ∧ Gains h text reserved after key) := by
  obtain ⟨found, hfind, -⟩ := hc.find?_eq hs text
  rw [internReserving_result, hfind]
  cases found with
  | some key => exact .inl ⟨key, rfl, rfl⟩
  | none =>
    refine .inr ⟨rfl, _, _, rfl, rfl, withString_slot_empty hs, cell?_withString hs,
      perm_strings_withString hc hs, find?_withString hc hs rfl hfind⟩

/-- Each text is interned once at most, and interning finds it or adds it. -/
structure InternsOnce (h : Heap) : Prop where
  /-- The slot of an interned symbol holds a string, and all hashes are that of its text. -/
  keys : ∀ key v, (key, v) ∈ h.strings.entries → ∃ s : Str,
    h.object? key.str.slot = some (.str s) ∧ s.hash = key.hash ∧ s.hash = Text.hash s.text
  distinct : (h.strings.entries.map fun e => h.textOf e.1).Nodup
  finds : ∀ text, ∃ found, h.find? text = .ok found ∧
    ∀ key, found = some key ↔ (∃ v, (key, v) ∈ h.strings.entries) ∧ h.textOf key = .ok text
  hit : ∀ text reserved key, h.find? text = .ok (some key) →
    (h.internReserving text reserved).result = .ok (h, key)
  miss : ∀ text reserved, h.find? text = .ok none → ∃ after key,
    (h.internReserving text reserved).result = .ok (after, key) ∧ Gains h text reserved after key

theorem Canonical.spells_of_textOf (hc : h.Canonical) (hkey : h.Interned key)
    (htext : h.textOf key = .ok text) : h.Spells key text := by
  obtain ⟨text', hspells⟩ := hc.spelled key hkey
  obtain rfl : text' = text := Except.ok.inj (hspells.textOf.symm.trans htext)
  exact hspells

theorem Canonical.internsOnce (hc : h.Canonical) (hs : h.Sound) : h.InternsOnce where
  keys key v he := by
    obtain ⟨text, s, ho, rfl, hhash, heq⟩ := hc.spelled key ⟨v, he⟩
    exact ⟨s, ho, hhash, hhash.trans heq⟩
  distinct := by
    refine List.pairwise_map.2 (hs.strings.layout.searchable.pairwise_entries.imp_of_mem ?_)
    intro e f he hf hne heq
    obtain ⟨text, hspells⟩ := hc.spelled e.1 ⟨e.2, he⟩
    have hspells' := hc.spells_of_textOf ⟨f.2, hf⟩ (heq.symm.trans hspells.textOf)
    exact hne (hc.unique _ _ _ ⟨e.2, he⟩ ⟨f.2, hf⟩ hspells hspells')
  finds text := by
    obtain ⟨found, hfind, hfound⟩ := hc.find?_eq hs text
    refine ⟨found, hfind, fun key => (hfound key).trans (and_congr_right ?_)⟩
    intro hkey
    exact ⟨Spells.textOf, hc.spells_of_textOf hkey⟩
  hit text reserved key hfind := by rw [internReserving_result, hfind]; rfl
  miss text reserved hfind := by
    rcases hc.intern_cases hs text reserved with ⟨key, hsome, -⟩ | ⟨-, after, key, hok, -, hgains⟩
    · rw [hsome] at hfind
      cases hfind
    · exact ⟨after, key, hok, hgains⟩

/-! ## Runs -/

theorem Canonical.step {after : Heap} (hc : h.Canonical) (hs : h.Sound)
    (hstep : Step false h after) : after.Canonical := by
  cases hstep with
  | @intern _ text reserved key hi =>
    rcases hc.intern_cases hs text reserved with
      ⟨key', -, hhit⟩ | ⟨hnone, after', key', hmiss, ha, -⟩
    · rw [hhit] at hi
      cases hi
      exact hc
    · rw [hmiss] at hi
      cases hi
      rw [ha]
      exact hc.withString hs rfl hnone
  | allocate _ ha => cases ha; exact hc.place hs _
  | mark slot => exact hc.markAll [slot]
  | @edit k r p put q hk _ ha =>
    obtain ⟨hr, rfl⟩ := of_access_eq_ok ha
    refine hc.replace (p := p) (fun hstr => ?_) (object?_of_deref hr) q
    cases hk hstr
  | collect hcollect => exact hc.collect hs hcollect

/-- Every heap is canonical in which no text of a string has been overwritten. -/
theorem Arises.canonical {policy : Policy} (ha : h.Arises false policy) : h.Canonical := by
  induction ha with
  | new => exact canonical_new policy
  | step hprev hstep ih => exact ih.step hprev.sound hstep

end Heap

end ObjectHeap

import ObjectHeap.Proofs.Machine.Rooted

/-!
# Concatenation of symbols

Symbols are concatenated as their texts are. That takes no more than that a text has one symbol, as
long as nothing is collected; but a concatenation that does not find its result makes room for it,
and the operands may be gone by then, or other symbols be in their slots later on. What can be
relied on is the stack: a symbol on it keeps its text (`Sound.held_intern`), over one concatenation
and so over any number of them (`Concatenates.held`). So the laws of texts are laws of the symbols
that are kept there, of which associativity is one.
-/

set_option autoImplicit false

namespace ObjectHeap

namespace Machine

variable {m later after : Machine} {policy : Policy} {text : String} {key : Symbol}

/-- Symbols on the stack are concatenated one after the other, and each result is pushed. The list
has the results with their operands before them, the last one first. -/
inductive Concatenates (m : Machine) : List (Symbol × Symbol × Symbol) → Machine → Prop
  | start : Concatenates m [] m
  | step {made : List (Symbol × Symbol × Symbol)} {later after : Machine} {a b joined : Symbol} :
    Concatenates m made later → .str a ∈ later.stack → .str b ∈ later.stack →
    (later.concatenate a b).result = .ok (after, joined) →
    Concatenates m ((a, b, joined) :: made) (after.push (.str joined))

/-- A symbol is on the stack, and this is its text. -/
def Holds (m : Machine) (key : Symbol) (text : String) : Prop :=
  .str key ∈ m.stack ∧ m.heap.Spells key text

/-- What is on the stack has a text. -/
theorem Sound.exists_holds (hm : m.Sound) (hkey : .str key ∈ m.stack) : ∃ text, m.Holds key text :=
  (hm.spells_of_valid (hm.closed.stack _ hkey)).imp fun _ hspells => ⟨hkey, hspells⟩

/-! ## Interning -/

/-- A text that is spelled already is interned at no cost. -/
theorem Sound.intern_of_spells (hm : m.Sound) (hspells : m.heap.Spells key text) :
    m.intern text = pure (m, key) := by
  have hfind : m.heap.find? text = .ok (some key) :=
    (hm.canonical.find?_eq_some_iff hm.heap).2
      ⟨hm.interned_of_valid hspells.validSymbol, hspells⟩
  exact Outcome.bind_of_ok hfind _

/-- The symbol that is interned spells the text, and what is on the stack spells what it spelled,
also if a collection has released what is not. -/
theorem Sound.spells_intern (hm : m.Sound) (hok : (m.intern text).result = .ok (after, key)) :
    after.Sound ∧ after.stack = m.stack ∧ after.heap.Spells key text ∧
      ∀ s t, m.Holds s t → after.heap.Spells s t := by
  rcases hm.intern_cases text with hfault | ⟨after', key', hok', hstep⟩
  · rw [hok] at hfault
    cases hfault
  · rw [hok, Except.ok.injEq, Prod.mk.injEq] at hok'
    obtain ⟨rfl, rfl⟩ := hok'
    have hsound := (hm.step (show m.Accepts (.intern text) from trivial) hstep).1
    cases hstep with
    | internOld hspells => exact ⟨hsound, rfl, hspells, fun _ _ hs => hs.2⟩
    | internNew _ _ hc =>
      refine ⟨hsound, hc.stack_eq, Heap.spells_withString_self hc.heap rfl, ?_⟩
      intro s t hs
      have hroomy := hs.2.keeps (hc.keeps_stack hs.1 (.str s))
      exact hroomy.keeps (Heap.keeps_withString hc.heap.slotted _ _)

/-- So if the symbol is pushed, it is on the stack beside all that was there. -/
theorem Sound.held_intern (hm : m.Sound) (hok : (m.intern text).result = .ok (after, key)) :
    (after.push (.str key)).Sound ∧ (after.push (.str key)).Holds key text ∧
      ∀ s t, m.Holds s t → (after.push (.str key)).Holds s t := by
  obtain ⟨hsound, hstack, hspells, hkept⟩ := hm.spells_intern hok
  refine ⟨hsound.push hspells.validSymbol, ⟨List.mem_cons_self, hspells⟩, fun s t hs => ?_⟩
  exact ⟨List.mem_cons_of_mem _ (hstack ▸ hs.1), hkept s t hs⟩

/-! ## Concatenations in a row -/

/-- All results of concatenations in a row are on the stack, with their operands, and spell what
those spell. -/
theorem Concatenates.held {made : List (Symbol × Symbol × Symbol)} (hc : m.Concatenates made later)
    (hm : m.Sound) : later.Sound ∧ ∀ a b joined, (a, b, joined) ∈ made →
      ∃ first second, later.Holds a first ∧ later.Holds b second ∧
        later.Holds joined (first ++ second) := by
  induction hc with
  | start => exact ⟨hm, fun _ _ _ hmem => absurd hmem List.not_mem_nil⟩
  | @step made later after a b joined _ ha hb hok ih =>
    obtain ⟨first, hfirst⟩ := ih.1.exists_holds ha
    obtain ⟨second, hsecond⟩ := ih.1.exists_holds hb
    rw [concatenate_eq hfirst.2 hsecond.2] at hok
    obtain ⟨hsound, hjoined, hkept⟩ := ih.1.held_intern hok
    refine ⟨hsound, fun a' b' joined' hmem => ?_⟩
    rcases List.mem_cons.1 hmem with heq | hold
    · simp only [Prod.mk.injEq] at heq
      obtain ⟨rfl, rfl, rfl⟩ := heq
      exact ⟨first, second, hkept _ _ hfirst, hkept _ _ hsecond, hjoined⟩
    · obtain ⟨first', second', ha', hb', hjoined'⟩ := ih.2 a' b' joined' hold
      exact ⟨first', second', hkept _ _ ha', hkept _ _ hb', hkept _ _ hjoined'⟩

/-- The symbols of three texts give the same symbol in both ways of putting them together. -/
theorem Concatenates.assoc {made : List (Symbol × Symbol × Symbol)}
    (hc : m.Concatenates made later) (hm : m.Sound) {a b c ab bc left right : Symbol}
    (hab : (a, b, ab) ∈ made) (hleft : (ab, c, left) ∈ made) (hbc : (b, c, bc) ∈ made)
    (hright : (a, bc, right) ∈ made) : left = right := by
  obtain ⟨hlater, hheld⟩ := hc.held hm
  obtain ⟨x, y, hax, hby, habxy⟩ := hheld a b ab hab
  obtain ⟨xy, z, habz, hcz, hleftz⟩ := hheld ab c left hleft
  obtain ⟨y', z', hby', hcz', hbcyz⟩ := hheld b c bc hbc
  obtain ⟨x', yz, hax', hbcz, hrightx⟩ := hheld a bc right hright
  -- Each of the symbols that occur twice has one text.
  obtain rfl := habxy.2.text_unique habz.2
  obtain rfl := hby.2.text_unique hby'.2
  obtain rfl := hcz.2.text_unique hcz'.2
  obtain rfl := hbcyz.2.text_unique hbcz.2
  obtain rfl := hax.2.text_unique hax'.2
  rw [String.append_assoc] at hleftz
  exact hlater.symbol_unique hleftz.2 hrightx.2

theorem Sound.concatenate_cases (hm : m.Sound) {a b : Symbol} (ha : m.heap.ValidSymbol a)
    (hb : m.heap.ValidSymbol b) : (m.concatenate a b).result = .error .thresholdOverflow ∨
      ∃ after joined, (m.concatenate a b).result = .ok (after, joined) := by
  obtain ⟨first, hfirst⟩ := hm.spells_of_valid ha
  obtain ⟨second, hsecond⟩ := hm.spells_of_valid hb
  rw [concatenate_eq hfirst hsecond]
  exact (hm.intern_cases (first ++ second)).imp_right
    fun ⟨after, joined, hok, _⟩ => ⟨after, joined, hok⟩

/-- **Symbols are concatenated as their texts are.** In every machine that arises, to concatenate
valid symbols is to intern their joined texts, in what is replied, left behind and reported, and an
overflow is no exception. The symbol of the empty text changes nothing on either side. And as long
as operands and results are kept on the stack, concatenations end well or overflow, and they are
associative, whatever is collected in between. -/
theorem Arises.concatenates_texts (ha : m.Arises policy) :
    (∀ a b, m.heap.ValidSymbol a → m.heap.ValidSymbol b → ∃ first second,
      m.heap.textOf a = .ok first ∧ m.heap.textOf b = .ok second ∧
      m.concatenate a b = m.intern (first ++ second)) ∧
    (∀ a empty, m.heap.ValidSymbol a → m.heap.ValidSymbol empty → m.heap.textOf empty = .ok "" →
      m.concatenate a empty = pure (m, a) ∧ m.concatenate empty a = pure (m, a)) ∧
    ∀ made later, m.Concatenates made later →
      (∀ a b, .str a ∈ later.stack → .str b ∈ later.stack →
        (later.concatenate a b).result = .error .thresholdOverflow ∨
        ∃ after joined, (later.concatenate a b).result = .ok (after, joined)) ∧
      ∀ a b c ab bc left right, (a, b, ab) ∈ made → (ab, c, left) ∈ made → (b, c, bc) ∈ made →
        (a, bc, right) ∈ made → left = right := by
  have hm := ha.sound
  refine ⟨?_, ?_, fun made later hc => ⟨?_, ?_⟩⟩
  · intro a b hva hvb
    obtain ⟨first, hfirst⟩ := hm.spells_of_valid hva
    obtain ⟨second, hsecond⟩ := hm.spells_of_valid hvb
    exact ⟨first, second, hfirst.textOf, hsecond.textOf, concatenate_eq hfirst hsecond⟩
  · intro a empty hva hvempty htext
    obtain ⟨text, hspells⟩ := hm.spells_of_valid hva
    have hempty : m.heap.Spells empty "" :=
      hm.canonical.spells_of_textOf (hm.interned_of_valid hvempty) htext
    rw [concatenate_eq hspells hempty, concatenate_eq hempty hspells, String.append_empty,
      String.empty_append]
    exact ⟨hm.intern_of_spells hspells, hm.intern_of_spells hspells⟩
  · intro a b hsa hsb
    have hclosed := (hc.held hm).1.closed.stack
    exact (hc.held hm).1.concatenate_cases (hclosed _ hsa) (hclosed _ hsb)
  · intro a b c ab bc left right
    exact hc.assoc hm

/-- A symbol of the given text with its string in the given slot. -/
def symbolIn (slot : Nat) (text : String) : Symbol := { str := ⟨slot⟩, hash := Text.hash text }

/-- The text is interned after a collection that releases nothing. -/
def spelling (m : Machine) (text : String) : Machine :=
  { m with heap := ({ m.heap with cycles := m.heap.cycles + 1 }.withString (.ofText text 0)).1 }

/-- A machine that collects whenever it can, with two names on its stack. -/
def lettered : Machine :=
  ((strained.push (.str (symbolIn 0 "A"))).spelling "B").push (.str (symbolIn 1 "B"))

theorem arises_lettered : lettered.Arises { stress := true } := by
  have hpushed : (strained.push (.str (symbolIn 0 "A"))).Arises { stress := true } :=
    .handle arises_strained
      (show Accepts _ (.push (.str (symbolIn 0 "A"))) from ⟨.ofText "A" 0, rfl, rfl⟩) rfl
  have hspelled : ((strained.push (.str (symbolIn 0 "A"))).spelling "B").Arises
      { stress := true } :=
    .handle hpushed (show Accepts _ (.intern "B") from trivial)
      (show _ = Except.ok (_, .symbol (symbolIn 1 "B")) by decide +kernel)
  exact .handle hspelled (show Accepts _ (.push (.str (symbolIn 1 "B"))) from
    ⟨.ofText "B" 0, by decide +kernel, rfl⟩) rfl

/-- One more concatenation, of which it is known what it does to the machine. -/
theorem Concatenates.next {made : List (Symbol × Symbol × Symbol)} (hc : m.Concatenates made later)
    (effect : Machine → Machine) (a b joined : Symbol) (ha : .str a ∈ later.stack)
    (hb : .str b ∈ later.stack)
    (hok : (later.concatenate a b).result = .ok (effect later, joined)) :
    m.Concatenates ((a, b, joined) :: made) ((effect later).push (.str joined)) :=
  .step hc ha hb hok

/-- The texts of the two names and the first of them again are joined in both ways. A collection
fires in each concatenation but the last, which finds what the second one has made. -/
theorem concatenates_texts_lettered : ∃ later left right, lettered.Concatenates
    [(symbolIn 0 "A", symbolIn 4 "BA", right), (symbolIn 1 "B", symbolIn 0 "A", symbolIn 4 "BA"),
      (symbolIn 2 "AB", symbolIn 0 "A", left), (symbolIn 0 "A", symbolIn 1 "B", symbolIn 2 "AB")]
      later ∧
    left = right ∧ later.heap.cycles = 5 := by
  have hstart : lettered.Concatenates [] lettered := .start
  have hab := hstart.next (spelling · "AB") (symbolIn 0 "A") (symbolIn 1 "B") (symbolIn 2 "AB")
    (by decide +kernel) (by decide +kernel) (by decide +kernel)
  have hleft := hab.next (spelling · "ABA") (symbolIn 2 "AB") (symbolIn 0 "A") (symbolIn 3 "ABA")
    (by decide +kernel) (by decide +kernel) (by decide +kernel)
  have hba := hleft.next (spelling · "BA") (symbolIn 1 "B") (symbolIn 0 "A") (symbolIn 4 "BA")
    (by decide +kernel) (by decide +kernel) (by decide +kernel)
  have hright := hba.next id (symbolIn 0 "A") (symbolIn 4 "BA") (symbolIn 3 "ABA")
    (by decide +kernel) (by decide +kernel) (by decide +kernel)
  have hassoc := ((Arises.concatenates_texts arises_lettered).2.2 _ _ hright).2
  refine ⟨_, _, _, hright, ?_, by decide +kernel⟩
  exact hassoc (symbolIn 0 "A") (symbolIn 1 "B") (symbolIn 0 "A") (symbolIn 2 "AB")
    (symbolIn 4 "BA") _ _ (by simp) (by simp) (by simp) (by simp)

end Machine

end ObjectHeap

import Kaleidoscope.Proofs.Interruption

/-! What a scanner may be asked for. Whatever it is, the scanner walks: it advances one character at
a time, and decides by the characters ahead of it and by its position alone how to go on. A read
that fails has moved the position already, so from there on the scanner gives the answers of one
that reads the character at the failure twice. -/

set_option autoImplicit false

namespace Kaleidoscope

theorem Source.dueFault?_eq_some_iff {s : Source} {n : Nat} {f e : Fault}
    (h : s.pending = some ⟨n, f⟩) : s.dueFault? = some e ↔ s.taken = n ∧ e = f := by
  unfold dueFault?
  rw [h]
  by_cases hn : n = s.taken
  · simp [Option.filter, hn, eq_comm]
  · simp [Option.filter, hn, Ne.symm hn]

namespace Scanner

/-- Scans that do nothing to the scanner but advance, and see nothing of it but the characters ahead
and the position. -/
inductive Walks {α : Type} : Scan α → Prop where
  | pure (a : α) : Walks (pure a)
  | look {k : List Char → Position → Scan α} : (∀ cs p, Walks (k cs p)) →
      Walks fun s => k s.ahead s.position s
  | advance {x : Scan α} : Walks x → Walks (do Scanner.advance; x)

variable {α β : Type}

theorem Walks.bind {x : Scan α} {k : α → Scan β} (hx : Walks x) (hk : ∀ a, Walks (k a)) :
    Walks (x >>= k) := by
  induction hx with
  | pure a => exact hk a
  | look _ ih => exact .look ih
  | advance _ ih =>
    rw [bind_assoc]
    exact .advance ih

theorem walks_look_bind {k : List Char → Scan α} (h : ∀ cs, Walks (k cs)) :
    Walks (Scanner.look >>= k) := .look fun cs _ => h cs

theorem walks_advance : Walks Scanner.advance := by
  have h := Walks.advance (Walks.pure ())
  rwa [bind_pure_unit] at h

theorem walks_advanceBy (n : Nat) : Walks (advanceBy n) := by
  induction n with
  | zero => exact .pure ()
  | succ n ih => exact .advance ih

theorem walks_skipBlanks : Walks skipBlanks := walks_look_bind fun _ => walks_advanceBy _

theorem walks_skipComment : Walks skipComment := walks_look_bind fun _ => walks_advanceBy _

theorem walks_numeral : Walks numeral :=
  walks_look_bind fun _ => (walks_advanceBy _).bind fun _ => .pure _

theorem walks_word : Walks word? := by
  refine walks_look_bind fun cs => ?_
  cases cs with
  | nil => exact walks_advance.bind fun _ => .pure _
  | cons c cs => exact (walks_advanceBy _).bind fun _ => .pure _

theorem walks_next : Walks next := by
  refine walks_look_bind fun cs => (walks_advanceBy _).bind fun _ => ?_
  refine Walks.look (k := fun _ start => do
    let cs := lexeme (← look)
    advanceBy cs.length
    return Token.ofLexeme start cs) fun _ start => ?_
  exact walks_look_bind fun _ => (walks_advanceBy _).bind fun _ => .pure _

theorem walks_tokensWithin (n : Nat) : Walks (tokensWithin n) := by
  induction n with
  | zero => exact .pure _
  | succ n ih =>
    refine walks_next.bind fun t => ?_
    split
    · exact .pure _
    · exact ih.bind fun _ => .pure _

theorem walks_tokens : Walks tokens :=
  Walks.look (k := fun cs _ => tokensWithin (cs.length + 1)) fun _ _ => walks_tokensWithin _

inductive Reaches : Scanner → Scanner → Prop where
  | here {s : Scanner} : Reaches s s
  | step {s s₁ s₂ : Scanner} : Scanner.advance s = .ok () s₁ → Reaches s₁ s₂ → Reaches s s₂

variable {s s₁ s' t : Scanner}

/-- The scanner after a read that has failed. The position is that of the next character, which has
not been read. -/
def slipped (s : Scanner) : Scanner :=
  ⟨s.current, s.position.after s.current, ⟨s.source.rest, s.source.taken, none⟩⟩

theorem advance_of_dueFault {f : Fault} (h : s.source.dueFault? = some f) :
    Scanner.advance s = .error f s.slipped := by
  simp [Scanner.advance, Source.read, h, slipped]

theorem advance_of_not_due (h : s.source.dueFault? = none) :
    ∃ s', Scanner.advance s = .ok () s' := by
  unfold Scanner.advance Source.read
  rw [h]
  cases s.source.rest with
  | nil => exact ⟨_, rfl⟩
  | cons c cs => exact ⟨_, rfl⟩

theorem pending_of_advance (h : Scanner.advance s = .ok () s') :
    s.source.dueFault? = none ∧ s'.source.pending = s.source.pending := by
  cases hd : s.source.dueFault? with
  | some f =>
    rw [advance_of_dueFault hd] at h
    cases h
  | none =>
    refine ⟨rfl, ?_⟩
    unfold Scanner.advance Source.read at h
    rw [hd] at h
    cases hr : s.source.rest with
    | nil =>
      simp only [hr] at h
      cases h
      rfl
    | cons c cs =>
      simp only [hr] at h
      cases h
      rfl

theorem Reaches.pending (h : s.Reaches s₁) : s₁.source.pending = s.source.pending := by
  induction h with
  | here => rfl
  | step ha _ ih => rw [ih, (pending_of_advance ha).2]

/-- How a walk may leave a scanner: where good advances have led, or one read behind that, if this
read fails. -/
inductive Leaves (s : Scanner) : EStateM.Result Fault Scanner α → Prop where
  | result {a : α} {s₁ : Scanner} : s.Reaches s₁ → Leaves s (.ok a s₁)
  | fault {f : Fault} {s₁ : Scanner} : s.Reaches s₁ → s₁.source.dueFault? = some f →
      Leaves s (.error f s₁.slipped)

theorem Leaves.of_advance {r : EStateM.Result Fault Scanner α} (ha : Scanner.advance s = .ok () s₁)
    (h : s₁.Leaves r) : s.Leaves r := by
  cases h with
  | result hr => exact .result (.step ha hr)
  | fault hr hd => exact .fault (.step ha hr) hd

theorem Walks.leaves {x : Scan α} (h : Walks x) (s : Scanner) : s.Leaves (x s) := by
  induction h generalizing s with
  | pure a => exact .result .here
  | look _ ih => exact ih s.ahead s.position s
  | advance _ ih =>
    cases hd : s.source.dueFault? with
    | some f =>
      rw [bind_error (advance_of_dueFault hd)]
      exact .fault .here hd
    | none =>
      obtain ⟨s₁, ha⟩ := advance_of_not_due hd
      rw [bind_ok ha]
      exact (ih s₁).of_advance ha

/-- The scanners are on the same characters at the same place, and the source of the second one does
not fail. -/
structure Alike (s t : Scanner) : Prop where
  current : s.current = t.current
  position : s.position = t.position
  rest : s.source.rest = t.source.rest
  sound : t.source.pending = none

theorem Alike.ahead_eq (h : s.Alike t) : s.ahead = t.ahead := by
  rw [ahead, ahead, h.current, h.rest]

theorem Alike.advance (h : s.Alike t) (hs : Scanner.advance s = .ok () s') :
    ∃ t', Scanner.advance t = .ok () t' ∧ s'.Alike t' := by
  have hdue := (pending_of_advance hs).1
  have hdue' : t.source.dueFault? = none := by simp [Source.dueFault?, h.sound]
  unfold Scanner.advance Source.read at hs ⊢
  rw [hdue] at hs
  rw [hdue', ← h.current, ← h.position, ← h.rest]
  cases hr : s.source.rest with
  | nil =>
    simp only [hr] at hs
    cases hs
    exact ⟨_, rfl, rfl, rfl, h.rest, h.sound⟩
  | cons c cs =>
    simp only [hr] at hs
    cases hs
    exact ⟨_, rfl, rfl, rfl, rfl, h.sound⟩

theorem Walks.alike {x : Scan α} (hx : Walks x) (h : s.Alike t) {a : α} (hs : x s = .ok a s') :
    ∃ t', x t = .ok a t' ∧ s'.Alike t' := by
  induction hx generalizing s t with
  | pure b =>
    cases hs
    exact ⟨t, rfl, h⟩
  | @look k _ ih =>
    have hsame : k t.ahead t.position t = k s.ahead s.position t := by
      rw [h.ahead_eq, h.position]
    obtain ⟨t', ht', h'⟩ := ih _ _ h hs
    exact ⟨t', hsame.trans ht', h'⟩
  | advance _ ih =>
    cases ha : Scanner.advance s with
    | error f s₁ =>
      rw [bind_error ha] at hs
      cases hs
    | ok _ s₁ =>
      rw [bind_ok ha] at hs
      obtain ⟨t₁, ht₁, h₁⟩ := h.advance ha
      obtain ⟨t', ht', h'⟩ := ih h₁ hs
      exact ⟨t', by rw [bind_ok ht₁, ht'], h'⟩

inductive Demand where
  | advance
  | skipBlanks
  | skipComment
  | numeral
  | word
  | next
  | tokens
  deriving DecidableEq, Repr

inductive Answer where
  | done
  | text (s : String)
  | missing
  | token (t : Token)
  | tokens (ts : List Token)
  deriving DecidableEq, Repr

def Demand.scan : Demand → Scan Answer
  | .advance => do
    Scanner.advance
    return .done
  | .skipBlanks => do
    Scanner.skipBlanks
    return .done
  | .skipComment => do
    Scanner.skipComment
    return .done
  | .numeral => return .text (← Scanner.numeral)
  | .word => return (← word?).elim .missing .text
  | .next => return .token (← Scanner.next)
  | .tokens => return .tokens (← Scanner.tokens)

theorem Demand.walks_scan (d : Demand) : Walks d.scan := by
  cases d with
  | advance => exact walks_advance.bind fun _ => .pure _
  | skipBlanks => exact walks_skipBlanks.bind fun _ => .pure _
  | skipComment => exact walks_skipComment.bind fun _ => .pure _
  | numeral => exact walks_numeral.bind fun _ => .pure _
  | word => exact walks_word.bind fun _ => .pure _
  | next => exact walks_next.bind fun _ => .pure _
  | tokens => exact walks_tokens.bind fun _ => .pure _

/-- What is seen after a demand: the answer or the fault, the current character and the
position. -/
structure Sight where
  answer : Except Fault Answer
  current : Option Char
  position : Position

/-- What is seen after each of some demands. A fault does not keep the later ones from being
made. -/
def sights : List Demand → Scanner → List Sight
  | [], _ => []
  | d :: ds, s =>
    match d.scan s with
    | .ok a s => ⟨.ok a, s.current, s.position⟩ :: sights ds s
    | .error f s => ⟨.error f, s.current, s.position⟩ :: sights ds s

theorem sights_ok {d : Demand} {ds : List Demand} {a : Answer} (h : d.scan s = .ok a s') :
    sights (d :: ds) s = ⟨.ok a, s'.current, s'.position⟩ :: sights ds s' := by
  simp only [sights, h]

theorem sights_error {d : Demand} {ds : List Demand} {f : Fault} (h : d.scan s = .error f s') :
    sights (d :: ds) s = ⟨.error f, s'.current, s'.position⟩ :: sights ds s' := by
  simp only [sights, h]

theorem Alike.sights_eq (h : s.Alike t) (hs : s.source.pending = none) (ds : List Demand) :
    sights ds s = sights ds t := by
  induction ds generalizing s t with
  | nil => rfl
  | cons d ds ih =>
    have hleaves := d.walks_scan.leaves s
    cases hd : d.scan s with
    | ok a s' =>
      rw [hd] at hleaves
      obtain ⟨t', ht', h'⟩ := d.walks_scan.alike h hd
      have hs' : s'.source.pending = none := by
        cases hleaves with
        | result hr => rw [hr.pending, hs]
      rw [sights_ok hd, sights_ok ht', h'.current, h'.position, ih h' hs']
    | error f s' =>
      rw [hd] at hleaves
      cases hleaves with
      | fault hr hdue => simp [Source.dueFault?, hr.pending, hs] at hdue

end Scanner

end Kaleidoscope

import Kaleidoscope.Text.Utf8
import Mathlib.Data.List.TakeWhile

/-! Bytes and the texts that they encode. A text is encoded character by character, and reading
takes exactly the encoded texts: the bytes that it refuses are the encoding of no text. -/

set_option autoImplicit false

namespace Kaleidoscope.Text

def utf8Bytes (cs : List Char) : List UInt8 := cs.flatMap String.utf8EncodeChar

theorem continuations?_eq_some_iff (b : UInt8) (n : Nat) :
    continuations? b = some n ↔ n = 0 ∧ b.toNat < 0x80 ∨
      n = 1 ∧ 0xc2 ≤ b.toNat ∧ b.toNat ≤ 0xdf ∨ n = 2 ∧ 0xe0 ≤ b.toNat ∧ b.toNat ≤ 0xef ∨
      n = 3 ∧ 0xf0 ≤ b.toNat ∧ b.toNat ≤ 0xf4 := by
  simp only [continuations?, Bool.and_eq_true, decide_eq_true_eq, UInt8.lt_iff_toNat_lt,
    UInt8.le_iff_toNat_le]
  simp
  split
  · simp; omega
  split
  · simp; omega
  split
  · simp; omega
  split <;> simp <;> omega

theorem isContinuation_iff (b : UInt8) :
    isContinuation b = true ↔ 0x80 ≤ b.toNat ∧ b.toNat ≤ 0xbf := by
  simp [isContinuation, UInt8.le_iff_toNat_le]

theorem acceptsSecond_iff (lead b : UInt8) :
    acceptsSecond lead b = true ↔ (0x80 ≤ b.toNat ∧ b.toNat ≤ 0xbf) ∧
      (lead.toNat = 0xe0 → 0xa0 ≤ b.toNat) ∧ (lead.toNat = 0xed → b.toNat < 0xa0) ∧
      (lead.toNat = 0xf0 → 0x90 ≤ b.toNat) ∧ (lead.toNat = 0xf4 → b.toNat < 0x90) := by
  simp only [acceptsSecond, Bool.and_eq_true, isContinuation_iff, ← UInt8.toNat_inj,
    UInt8.lt_iff_toNat_lt, UInt8.le_iff_toNat_le]
  refine and_congr_right fun _ => ?_
  simp
  split
  · omega
  split
  · omega
  split
  · omega
  omega

/-- The bytes behind the first byte of a character. -/
def Continues (lead : UInt8) : List UInt8 → Prop
  | [] => True
  | b :: bs => acceptsSecond lead b = true ∧ ∀ b' ∈ bs, isContinuation b' = true

theorem continued_eq_iff (lead : UInt8) (n : Nat) (rest : List UInt8) :
    continued lead n rest = n ↔ (rest.take n).length = n ∧ Continues lead (rest.take n) := by
  have hle : (rest.take n).length ≤ n := List.length_take_le ..
  unfold continued
  generalize rest.take n = tail at hle ⊢
  cases tail with
  | nil => simp [Continues]
  | cons b bs =>
    have htaken : (bs.takeWhile isContinuation).length ≤ bs.length :=
      (List.takeWhile_prefix isContinuation).length_le
    rw [List.length_cons] at hle ⊢
    simp only [Continues]
    split
    · next hb =>
      simp only [hb, true_and]
      rw [← List.takeWhile_eq_self_iff]
      constructor
      · intro h
        exact ⟨by omega, (List.takeWhile_prefix isContinuation).eq_of_length (by omega)⟩
      · rintro ⟨h, hself⟩
        rw [hself]
        omega
    · next hb => exact iff_of_false (by omega) fun h => hb h.2.1

theorem decodeFirst_eq_ok_iff {lead : UInt8} {rest : List UInt8} {c : Char} {n : Nat} :
    decodeFirst lead rest = .ok (c, n) ↔
      ∃ tail, rest = tail ++ rest.drop n ∧ tail.length = n ∧ continuations? lead = some n ∧
        Continues lead tail ∧ Char.ofNat (codePoint lead tail) = c := by
  unfold decodeFirst
  constructor
  · intro h
    split at h
    · cases h
    · next k hk =>
      simp only at h
      split at h
      · next hfound =>
        cases h
        obtain ⟨hlen, hcontinues⟩ := (continued_eq_iff _ _ _).1 hfound
        exact ⟨_, (List.take_append_drop ..).symm, hlen, hk, hcontinues, rfl⟩
      · split at h <;> cases h
  · rintro ⟨tail, hrest, rfl, hk, hcontinues, rfl⟩
    have htake : rest.take tail.length = tail := by
      rw [hrest]
      exact List.take_left
    have hfound : continued lead tail.length rest = tail.length :=
      (continued_eq_iff _ _ _).2 (by rw [htake]; exact ⟨rfl, hcontinues⟩)
    simp only [hk, hfound, htake, if_true]

theorem codePoint_two (lead b : UInt8) :
    codePoint lead [b] = 64 * (lead.toNat % 32) + b.toNat % 64 := rfl

theorem codePoint_three (lead b b' : UInt8) :
    codePoint lead [b, b'] =
      64 * (64 * (lead.toNat % 16) + b.toNat % 64) + b'.toNat % 64 := rfl

theorem codePoint_four (lead b b' b'' : UInt8) :
    codePoint lead [b, b', b''] =
      64 * (64 * (64 * (lead.toNat % 8) + b.toNat % 64) + b'.toNat % 64) + b''.toNat % 64 := rfl

theorem utf8EncodeChar_eq (c : Char) :
    String.utf8EncodeChar c =
      if c.toNat ≤ 0x7f then [.ofNat c.toNat]
      else if c.toNat ≤ 0x7ff then [.ofNat (c.toNat / 64 % 32 + 0xc0), .ofNat (c.toNat % 64 + 0x80)]
      else if c.toNat ≤ 0xffff then
        [.ofNat (c.toNat / 4096 % 16 + 0xe0), .ofNat (c.toNat / 64 % 64 + 0x80),
          .ofNat (c.toNat % 64 + 0x80)]
      else
        [.ofNat (c.toNat / 262144 % 8 + 0xf0), .ofNat (c.toNat / 4096 % 64 + 0x80),
          .ofNat (c.toNat / 64 % 64 + 0x80), .ofNat (c.toNat % 64 + 0x80)] := rfl

theorem byte_toNat {n : Nat} (h : n < 256) : (UInt8.ofNat n).toNat = n :=
  UInt8.toNat_ofNat_of_lt' h

theorem continues_of_encode {c : Char} {lead : UInt8} {tail : List UInt8}
    (h : String.utf8EncodeChar c = lead :: tail) :
    continuations? lead = some tail.length ∧ Continues lead tail ∧
      Char.ofNat (codePoint lead tail) = c := by
  have hc : c.toNat < 0xd800 ∨ 0xdfff < c.toNat ∧ c.toNat < 0x110000 := c.valid
  have hchar : Char.ofNat c.toNat = c := Char.ofNat_toNat c
  rw [utf8EncodeChar_eq] at h
  generalize c.toNat = v at hc hchar h
  rw [continuations?_eq_some_iff, ← hchar]
  split at h
  · obtain ⟨rfl, rfl⟩ := List.cons.inj h
    have hlead := byte_toNat (n := v) (by omega)
    exact ⟨.inl ⟨rfl, by omega⟩, trivial, congrArg _ hlead⟩
  split at h
  · obtain ⟨rfl, rfl⟩ := List.cons.inj h
    have hlead := byte_toNat (n := v / 64 % 32 + 192) (by omega)
    have hb := byte_toNat (n := v % 64 + 128) (by omega)
    refine ⟨.inr (.inl ⟨rfl, by omega, by omega⟩), ⟨?_, by simp⟩, ?_⟩
    · rw [acceptsSecond_iff]
      omega
    · rw [codePoint_two]
      exact congrArg _ (by omega)
  split at h
  · obtain ⟨rfl, rfl⟩ := List.cons.inj h
    have hlead := byte_toNat (n := v / 4096 % 16 + 224) (by omega)
    have hb := byte_toNat (n := v / 64 % 64 + 128) (by omega)
    have hb' := byte_toNat (n := v % 64 + 128) (by omega)
    refine ⟨.inr (.inr (.inl ⟨rfl, by omega, by omega⟩)), ⟨?_, ?_⟩, ?_⟩
    · rw [acceptsSecond_iff]
      omega
    · rw [List.forall_mem_singleton, isContinuation_iff]
      omega
    · rw [codePoint_three]
      exact congrArg _ (by omega)
  · obtain ⟨rfl, rfl⟩ := List.cons.inj h
    have hlead := byte_toNat (n := v / 262144 % 8 + 240) (by omega)
    have hb := byte_toNat (n := v / 4096 % 64 + 128) (by omega)
    have hb' := byte_toNat (n := v / 64 % 64 + 128) (by omega)
    have hb'' := byte_toNat (n := v % 64 + 128) (by omega)
    refine ⟨.inr (.inr (.inr ⟨rfl, by omega, by omega⟩)), ⟨?_, ?_⟩, ?_⟩
    · rw [acceptsSecond_iff]
      omega
    · rw [List.forall_mem_cons, List.forall_mem_singleton, isContinuation_iff, isContinuation_iff]
      omega
    · rw [codePoint_four]
      exact congrArg _ (by omega)

theorem toNat_ofNat {v : Nat} (hv : v < 0xd800 ∨ 0xdfff < v ∧ v < 0x110000) :
    (Char.ofNat v).toNat = v := by
  have h : Char.ofNat v = Char.ofNatAux v hv := dif_pos hv
  rw [h]
  rfl

theorem encode_of_continues {lead : UInt8} {tail : List UInt8}
    (hk : continuations? lead = some tail.length) (h : Continues lead tail) :
    String.utf8EncodeChar (Char.ofNat (codePoint lead tail)) = lead :: tail := by
  rw [continuations?_eq_some_iff] at hk
  have hbyte : ∀ (b : UInt8) (n : Nat), b.toNat = n → UInt8.ofNat n = b := by
    rintro b _ rfl
    exact UInt8.ofNat_toNat
  rw [utf8EncodeChar_eq]
  match tail, h with
  | [], _ =>
    have hlead : lead.toNat < 0x80 := by simpa using hk
    have hvalue : codePoint lead [] = lead.toNat := rfl
    rw [hvalue, toNat_ofNat (.inl (by omega)), if_pos (by omega), hbyte lead _ rfl]
  | [b], h =>
    have hlead : 0xc2 ≤ lead.toNat ∧ lead.toNat ≤ 0xdf := by simpa using hk
    have hb := ((acceptsSecond_iff _ _).1 h.1).1
    rw [codePoint_two, toNat_ofNat (.inl (by omega)), if_neg (by omega), if_pos (by omega),
      hbyte lead _ (by omega), hbyte b _ (by omega)]
  | [b, b'], h =>
    have hlead : 0xe0 ≤ lead.toNat ∧ lead.toNat ≤ 0xef := by simpa using hk
    have hb := (acceptsSecond_iff _ _).1 h.1
    have hb' := (isContinuation_iff _).1 (h.2 b' List.mem_cons_self)
    rw [codePoint_three, toNat_ofNat (by omega), if_neg (by omega), if_neg (by omega),
      if_pos (by omega), hbyte lead _ (by omega), hbyte b _ (by omega), hbyte b' _ (by omega)]
  | [b, b', b''], h =>
    have hlead : 0xf0 ≤ lead.toNat ∧ lead.toNat ≤ 0xf4 := by simpa using hk
    have hb := (acceptsSecond_iff _ _).1 h.1
    have hb' := (isContinuation_iff _).1 (h.2 b' (by simp))
    have hb'' := (isContinuation_iff _).1 (h.2 b'' (by simp))
    rw [codePoint_four, toNat_ofNat (by omega), if_neg (by omega), if_neg (by omega),
      if_neg (by omega), hbyte lead _ (by omega), hbyte b _ (by omega), hbyte b' _ (by omega),
      hbyte b'' _ (by omega)]
  | _ :: _ :: _ :: _ :: _, _ => simp at hk

theorem exists_encode (c : Char) : ∃ lead tail, String.utf8EncodeChar c = lead :: tail := by
  rw [utf8EncodeChar_eq]
  split
  · exact ⟨_, _, rfl⟩
  split
  · exact ⟨_, _, rfl⟩
  split <;> exact ⟨_, _, rfl⟩

theorem decodeFrom_append (offset : Nat) (tail rest : List UInt8) :
    decodeFrom offset tail.length (tail ++ rest) = decodeFrom (offset + tail.length) 0 rest := by
  induction tail generalizing offset with
  | nil => rfl
  | cons b tail ih =>
    rw [List.cons_append, List.length_cons, decodeFrom, ih, Nat.add_assoc, Nat.add_comm 1]

theorem decodeFrom_utf8Bytes (offset : Nat) (cs : List Char) :
    decodeFrom offset 0 (utf8Bytes cs) = .ok cs := by
  induction cs generalizing offset with
  | nil => rfl
  | cons c cs ih =>
    obtain ⟨lead, tail, hc⟩ := exists_encode c
    obtain ⟨hk, hcontinues, hchar⟩ := continues_of_encode hc
    have hfirst : decodeFirst lead (tail ++ utf8Bytes cs) = .ok (c, tail.length) :=
      decodeFirst_eq_ok_iff.2 ⟨tail, by rw [List.drop_left], rfl, hk, hcontinues, hchar⟩
    have hbytes : utf8Bytes (c :: cs) = lead :: (tail ++ utf8Bytes cs) := by
      rw [utf8Bytes, List.flatMap_cons, hc, List.cons_append, utf8Bytes]
    rw [hbytes, decodeFrom, hfirst]
    simp only [decodeFrom_append, ih]
    rfl

theorem decodeFrom_cons_ok {offset : Nat} {lead : UInt8} {rest : List UInt8} {cs : List Char}
    (h : decodeFrom offset 0 (lead :: rest) = .ok cs) :
    ∃ c n cs', decodeFirst lead rest = .ok (c, n) ∧
      decodeFrom (offset + 1) n rest = .ok cs' ∧ cs = c :: cs' := by
  rw [decodeFrom] at h
  split at h
  · cases h
  · next c n hfirst =>
    cases hrest : decodeFrom (offset + 1) n rest with
    | error e =>
      rw [hrest] at h
      cases h
    | ok cs' =>
      rw [hrest] at h
      cases h
      exact ⟨c, n, cs', hfirst, hrest, rfl⟩

theorem eq_utf8Bytes_of_decodeFrom {offset : Nat} {bytes : List UInt8} {cs : List Char}
    (h : decodeFrom offset 0 bytes = .ok cs) : bytes = utf8Bytes cs := by
  induction cs generalizing offset bytes with
  | nil =>
    cases bytes with
    | nil => rfl
    | cons lead rest =>
      obtain ⟨_, _, _, -, -, hcs⟩ := decodeFrom_cons_ok h
      cases hcs
  | cons c cs ih =>
    cases bytes with
    | nil => cases h
    | cons lead rest =>
      obtain ⟨c', n, cs', hfirst, hrest, hcs⟩ := decodeFrom_cons_ok h
      obtain ⟨rfl, rfl⟩ := List.cons.inj hcs
      obtain ⟨tail, hsplit, rfl, hk, hcontinues, rfl⟩ := decodeFirst_eq_ok_iff.1 hfirst
      rw [hsplit, decodeFrom_append] at hrest
      rw [hsplit, ih hrest, utf8Bytes, utf8Bytes, List.flatMap_cons,
        encode_of_continues hk hcontinues, List.cons_append]

/-- Exactly the encodings of texts are read. -/
theorem decodeUtf8_eq_ok_iff (bytes : List UInt8) (s : String) :
    decodeUtf8 bytes = .ok s ↔ bytes = utf8Bytes s.toList := by
  unfold decodeUtf8
  constructor
  · intro h
    cases hread : decodeFrom 0 0 bytes with
    | error e =>
      rw [hread] at h
      cases h
    | ok cs =>
      rw [hread] at h
      cases h
      rw [String.toList_ofList]
      exact eq_utf8Bytes_of_decodeFrom hread
  · rintro rfl
    rw [decodeFrom_utf8Bytes]
    exact congrArg Except.ok String.ofList_toList

end Kaleidoscope.Text

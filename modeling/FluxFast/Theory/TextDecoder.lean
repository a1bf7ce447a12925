import FluxFast.Theory.Utf8

/-!
# TextDecoder — streaming UTF-8 decoding

The UTF-8 decoder of the Encoding Standard, one byte after the other: malformed sequences become
U+FFFD, a byte that cannot continue a sequence is read again, and a byte order mark at the very
start is dropped.
-/

namespace FluxFast.Theory

/-- A sequence that is not complete: the bits read so far, how many bytes it still needs, and the
bounds of the next one. -/
structure Utf8Sequence where
  codePoint : Nat
  needed : Nat
  lower : Nat := 0x80
  upper : Nat := 0xBF
  deriving DecidableEq

def replacement : Char := Char.ofNat 0xFFFD

def byteOrderMark : Char := Char.ofNat 0xFEFF

/-- A byte outside a sequence. -/
def leadByte (b : Nat) : Option Utf8Sequence × List Char :=
  if b ≤ 0x7F then (none, [Char.ofNat b])
  else if 0xC2 ≤ b ∧ b ≤ 0xDF then (some { codePoint := b - 0xC0, needed := 1 }, [])
  else if 0xE0 ≤ b ∧ b ≤ 0xEF then
    (some { codePoint := b - 0xE0, needed := 2,
            lower := if b = 0xE0 then 0xA0 else 0x80,
            upper := if b = 0xED then 0x9F else 0xBF }, [])
  else if 0xF0 ≤ b ∧ b ≤ 0xF4 then
    (some { codePoint := b - 0xF0, needed := 3,
            lower := if b = 0xF0 then 0x90 else 0x80,
            upper := if b = 0xF4 then 0x8F else 0xBF }, [])
  else (none, [replacement])

def utf8Step (pending : Option Utf8Sequence) (b : Nat) : Option Utf8Sequence × List Char :=
  match pending with
  | none => leadByte b
  | some sequence =>
    if sequence.lower ≤ b ∧ b ≤ sequence.upper then
      let codePoint := sequence.codePoint * 64 + (b - 0x80)
      if sequence.needed = 1 then (none, [Char.ofNat codePoint])
      else (some { codePoint := codePoint, needed := sequence.needed - 1 }, [])
    else ((leadByte b).1, replacement :: (leadByte b).2)

structure TextDecoder where
  pending : Option Utf8Sequence := none
  bomSeen : Bool := false
  deriving DecidableEq

namespace TextDecoder

/-- Drop a byte order mark that is the first character of the stream. -/
def skipMark (bomSeen : Bool) (text : List Char) : Bool × List Char :=
  match bomSeen, text with
  | true, text => (true, text)
  | false, [] => (false, [])
  | false, c :: rest => (true, if c = byteOrderMark then rest else c :: rest)

def step (d : TextDecoder) (b : UInt8) : TextDecoder × List Char :=
  let (pending, text) := utf8Step d.pending b.toNat
  let (bomSeen, text) := skipMark d.bomSeen text
  (⟨pending, bomSeen⟩, text)

/-- `decode(chunk, { stream: true })`. -/
def decode (d : TextDecoder) : List UInt8 → TextDecoder × List Char
  | [] => (d, [])
  | b :: bytes =>
    let (d', text) := d.step b
    let (d'', rest) := d'.decode bytes
    (d'', text ++ rest)

/-- `decode()` at the end of the stream. -/
def flush (d : TextDecoder) : List Char :=
  match d.pending with
  | none => []
  | some _ => (skipMark d.bomSeen [replacement]).2

/-- Decoding does not depend on where the chunks end. -/
theorem decode_append (d : TextDecoder) (xs ys : List UInt8) :
    d.decode (xs ++ ys) =
      (((d.decode xs).1.decode ys).1, (d.decode xs).2 ++ ((d.decode xs).1.decode ys).2) := by
  induction xs generalizing d with
  | nil => rfl
  | cons b xs ih =>
    simp only [List.cons_append, decode, ih, List.append_assoc]

/-! ## Plain text -/

theorem step_ascii {d : TextDecoder} (hd : d.pending = none) {c : Char} (hc : c.toNat < 0x80) :
    (d.step (UInt8.ofNat c.toNat)).1.pending = none ∧
      (d.step (UInt8.ofNat c.toNat)).2 = [c] := by
  have hbyte : (UInt8.ofNat c.toNat).toNat = c.toNat := by
    rw [UInt8.toNat_ofNat']
    omega
  have hraw : utf8Step d.pending (UInt8.ofNat c.toNat).toNat = (none, [c]) := by
    rw [hd, hbyte, utf8Step, leadByte, if_pos (by omega), Char.ofNat_toNat]
  have hmark : c ≠ byteOrderMark := by
    rintro rfl
    exact absurd hc (by decide)
  unfold step
  rw [hraw]
  refine ⟨rfl, ?_⟩
  show (skipMark d.bomSeen [c]).2 = [c]
  cases d.bomSeen with
  | true => rfl
  | false => exact if_neg hmark

/-- ASCII text is decoded as it was encoded. -/
theorem decode_ascii {d : TextDecoder} (hd : d.pending = none) {cs : List Char}
    (h : ∀ c ∈ cs, c.toNat < 0x80) :
    (d.decode (Utf8.encode cs)).1.pending = none ∧ (d.decode (Utf8.encode cs)).2 = cs := by
  induction cs generalizing d with
  | nil => exact ⟨hd, rfl⟩
  | cons c cs ih =>
    have hc := h c List.mem_cons_self
    obtain ⟨hpending, htext⟩ := step_ascii hd hc
    obtain ⟨hpending', htext'⟩ := ih hpending fun c' hc' => h c' (List.mem_cons_of_mem _ hc')
    have hbytes : Utf8.encode (c :: cs) = UInt8.ofNat c.toNat :: Utf8.encode cs :=
      congrArg (· ++ Utf8.encode cs) (Utf8.encodeChar_ascii hc)
    rw [hbytes, decode]
    exact ⟨hpending', by dsimp only; rw [htext, htext']; rfl⟩

/-! ## Where the text can be cut -/

theorem leadByte_text (b : Nat) :
    (leadByte b).2 = [] ∨ ∃ c, (leadByte b).2 = [c] := by
  unfold leadByte
  repeat' split
  all_goals first | exact .inl rfl | exact .inr ⟨_, rfl⟩

/-- A byte gives at most one character, after the mark of a malformed sequence. -/
theorem step_text (d : TextDecoder) (b : UInt8) :
    (d.step b).2 = [] ∨ (∃ c, (d.step b).2 = [c]) ∨ ∃ c, (d.step b).2 = [replacement, c] := by
  -- before the byte order mark is looked for
  have hraw : (utf8Step d.pending b.toNat).2 = [] ∨ (∃ c, (utf8Step d.pending b.toNat).2 = [c]) ∨
      ∃ c, (utf8Step d.pending b.toNat).2 = [replacement, c] := by
    unfold utf8Step
    cases d.pending with
    | none => exact (leadByte_text _).imp id .inl
    | some sequence =>
      dsimp only
      split
      · split
        · exact .inr (.inl ⟨_, rfl⟩)
        · exact .inl rfl
      -- a sequence broken off gives a replacement, and the byte is read again as a first one
      · rcases leadByte_text b.toNat with h | ⟨c, h⟩
        · exact .inr (.inl ⟨replacement, by rw [h]⟩)
        · exact .inr (.inr ⟨c, by rw [h]⟩)
  show (skipMark d.bomSeen (utf8Step d.pending b.toNat).2).2 = [] ∨
    (∃ c, (skipMark d.bomSeen (utf8Step d.pending b.toNat).2).2 = [c]) ∨
    ∃ c, (skipMark d.bomSeen (utf8Step d.pending b.toNat).2).2 = [replacement, c]
  generalize (utf8Step d.pending b.toNat).2 = text at hraw
  cases d.bomSeen with
  | true => exact hraw
  | false =>
    -- only the very first character can be the mark that is left out
    rcases hraw with rfl | ⟨c, rfl⟩ | ⟨c, rfl⟩
    · exact .inl rfl
    · by_cases hc : c = byteOrderMark
      · exact .inl (if_pos hc)
      · exact .inr (.inl ⟨c, if_neg hc⟩)
    · refine .inr (.inr ⟨c, ?_⟩)
      show (if replacement = byteOrderMark then [c] else [replacement, c]) = [replacement, c]
      exact if_neg (by decide)

/-- After every character but the mark of a malformed sequence some chunk can end. -/
theorem exists_cut {d : TextDecoder} {bytes : List UInt8} {before after : List Char} {c : Char}
    (h : (d.decode bytes).2 = before ++ c :: after) (hc : c ≠ replacement) :
    ∃ xs ys, bytes = xs ++ ys ∧ (d.decode xs).2 = before ++ [c] ∧
      ((d.decode xs).1.decode ys).2 = after := by
  -- induction on the bytes: the character is written by this byte or by a later one
  induction bytes generalizing d before with
  | nil => simp [decode] at h
  | cons b bytes ih =>
    have hsplit : (d.decode (b :: bytes)).2 = (d.step b).2 ++ ((d.step b).1.decode bytes).2 := rfl
    rw [hsplit] at h
    have hmore : ∀ before', before = (d.step b).2 ++ before' →
        ((d.step b).1.decode bytes).2 = before' ++ c :: after →
        ∃ xs ys, b :: bytes = xs ++ ys ∧ (d.decode xs).2 = before ++ [c] ∧
          ((d.decode xs).1.decode ys).2 = after := by
      intro before' hbefore hrest
      obtain ⟨xs, ys, hbytes, hxs, hys⟩ := ih hrest
      refine ⟨b :: xs, ys, by rw [hbytes]; rfl, ?_, hys⟩
      show (d.step b).2 ++ ((d.step b).1.decode xs).2 = _
      rw [hxs, hbefore, List.append_assoc]
    have hhere : (d.step b).2 = before ++ [c] → ((d.step b).1.decode bytes).2 = after →
        ∃ xs ys, b :: bytes = xs ++ ys ∧ (d.decode xs).2 = before ++ [c] ∧
          ((d.decode xs).1.decode ys).2 = after := by
      intro hstep hrest
      refine ⟨[b], bytes, rfl, ?_, hrest⟩
      show (d.step b).2 ++ [] = _
      rw [List.append_nil, hstep]
    rcases step_text d b with hstep | ⟨x, hstep⟩ | ⟨x, hstep⟩
    · rw [hstep, List.nil_append] at h
      exact hmore before (by rw [hstep]; rfl) h
    · rw [hstep] at h
      cases before with
      | nil =>
        obtain ⟨rfl, hrest⟩ := List.cons.inj h
        exact hhere hstep hrest
      | cons first before =>
        obtain ⟨rfl, hrest⟩ := List.cons.inj h
        exact hmore before (by rw [hstep]; rfl) hrest
    -- the replacement is not the character sought, so the second one or a later one is
    · rw [hstep] at h
      cases before with
      | nil => exact absurd (List.cons.inj h).1.symm hc
      | cons first before =>
        simp only [List.cons_append, List.nil_append, List.cons.injEq] at h
        obtain ⟨rfl, h⟩ := h
        cases before with
        | nil =>
          obtain ⟨rfl, hrest⟩ := List.cons.inj h
          exact hhere hstep hrest
        | cons second before =>
          obtain ⟨rfl, hrest⟩ := List.cons.inj h
          exact hmore before (by rw [hstep]; rfl) hrest

end TextDecoder

end FluxFast.Theory

import FluxFast.Core.SseFrames

/-!
# SseChunks — how the live stream depends on its chunks

What the reader yields for a byte string, however it is cut into chunks.  The cuts show where a bad
frame shares a chunk with an event before it, and where a frame just below the size limit waits for
the end of its separator.
-/

namespace FluxFast.Core

open FluxFast.Theory

/-! ## What a byte string holds -/

section Reading

variable {E : Type} (readData : List Char → Except StreamError E)

/-- The events before the first bad frame. -/
def goodEvents : List Frame → List E
  | [] => []
  | f :: rest =>
    match readFrame readData f.text with
    | .error _ => []
    | .ok event => event.toList ++ goodEvents rest

/-- The frames up to the first bad one. -/
def reachedFrames : List Frame → List Frame
  | [] => []
  | f :: rest =>
    match readFrame readData f.text with
    | .error _ => [f]
    | .ok _ => f :: reachedFrames rest

/-- How many frames come before the first bad one. -/
def goodFrames (frames : List Frame) : Nat :=
  (frames.takeWhile fun f => (readFrame readData f.text).isOk).length

def firstFailure : List Frame → Option StreamError
  | [] => none
  | f :: rest =>
    match readFrame readData f.text with
    | .error e => some e
    | .ok _ => firstFailure rest

/-- What a push fails with when the buffer holds `text`. -/
def pushFailure (text : List Char) : Option StreamError :=
  match firstFailure readData (splitFrames text).1 with
  | some e => some e
  | none => if maxLiveEventBytes < frameBytes (splitFrames text).2 then some frameSizeError else none

/-- What is left at the end of the stream, as a frame. -/
def readLast (text : List Char) : Except StreamError (List E) :=
  if text = [] then .ok [] else (readFrame readData text).map Option.toList

/-- What the whole stream fails with; `flushed` is what the decoder still gives at its end. -/
def streamFailure (text flushed : List Char) : Option StreamError :=
  match pushFailure readData text with
  | some e => some e
  | none =>
    match readLast readData ((splitFrames text).2 ++ flushed) with
    | .error e => some e
    | .ok _ => none

/-- The frame is within the size limit, and over it with a part of its separator. -/
def crowded (f : Frame) : Bool :=
  frameBytes f.text ≤ maxLiveEventBytes && maxLiveEventBytes < frameBytes f.text + (f.separator - 1)

/-- No frame is bad and none is crowded, or no event comes before the bad frame, and either none is
crowded or the size limit is what the stream fails with. -/
def ChunkSafe (text flushed : List Char) : Prop :=
  (pushFailure readData text = none ∧
    ∀ f ∈ reachedFrames readData (splitFrames text).1, crowded f = false) ∨
  (goodEvents readData (splitFrames text).1 = [] ∧
    ((∀ f ∈ reachedFrames readData (splitFrames text).1, crowded f = false) ∨
      streamFailure readData text flushed = some frameSizeError))

variable {readData}

theorem readFrames_eq (frames : List Frame) :
    readFrames readData frames =
      match firstFailure readData frames with
      | some e => .error e
      | none => .ok (goodEvents readData frames) := by
  induction frames with
  | nil => rfl
  | cons f rest ih =>
    unfold readFrames firstFailure goodEvents
    cases hread : readFrame readData f.text with
    | error e => rfl
    | ok event =>
      dsimp only [bind, Except.bind]
      rw [ih]
      cases firstFailure readData rest <;> rfl

section Append

variable {frames : List Frame} (h : firstFailure readData frames = none) (more : List Frame)
include h

theorem firstFailure_append :
    firstFailure readData (frames ++ more) = firstFailure readData more := by
  induction frames with
  | nil => rfl
  | cons f rest ih =>
    unfold firstFailure at h
    rw [List.cons_append, firstFailure]
    cases hread : readFrame readData f.text with
    | error e =>
      rw [hread] at h
      cases h
    | ok event =>
      rw [hread] at h
      exact ih h

theorem goodEvents_append : goodEvents readData (frames ++ more) =
    goodEvents readData frames ++ goodEvents readData more := by
  induction frames with
  | nil => rfl
  | cons f rest ih =>
    unfold firstFailure at h
    rw [List.cons_append, goodEvents, goodEvents]
    cases hread : readFrame readData f.text with
    | error e =>
      rw [hread] at h
      cases h
    | ok event =>
      rw [hread] at h
      dsimp only
      rw [ih h, List.append_assoc]

theorem reachedFrames_append : reachedFrames readData (frames ++ more) =
    frames ++ reachedFrames readData more := by
  induction frames with
  | nil => rfl
  | cons f rest ih =>
    unfold firstFailure at h
    rw [List.cons_append, reachedFrames]
    cases hread : readFrame readData f.text with
    | error e =>
      rw [hread] at h
      cases h
    | ok event =>
      rw [hread] at h
      dsimp only
      rw [ih h, List.cons_append]

theorem isOk_of_firstFailure {f : Frame} (hf : f ∈ frames) :
    (readFrame readData f.text).isOk = true := by
  induction frames with
  | nil => cases hf
  | cons first rest ih =>
    unfold firstFailure at h
    cases hread : readFrame readData first.text with
    | error e =>
      rw [hread] at h
      cases h
    | ok event =>
      rw [hread] at h
      rcases List.mem_cons.mp hf with rfl | hf
      · rw [hread]
        rfl
      · exact ih h hf

theorem goodFrames_append : goodFrames readData (frames ++ more) =
    frames.length + goodFrames readData more := by
  unfold goodFrames
  rw [List.takeWhile_append_of_pos fun f hf => isOk_of_firstFailure h hf, List.length_append]

theorem goodFrames_of_firstFailure : goodFrames readData frames = frames.length := by
  have happend := goodFrames_append h []
  rwa [List.append_nil] at happend

end Append

theorem goodFrames_append_some {frames : List Frame} {e : StreamError}
    (h : firstFailure readData frames = some e) (more : List Frame) :
    goodFrames readData (frames ++ more) = goodFrames readData frames := by
  induction frames with
  | nil => cases h
  | cons f rest ih =>
    unfold firstFailure at h
    unfold goodFrames at ih ⊢
    cases hread : readFrame readData f.text with
    | error e' => simp [hread, Except.isOk, Except.toBool]
    | ok event =>
      rw [hread] at h
      simpa [hread, Except.isOk, Except.toBool] using ih h

/-- A failure stays the first one when more frames follow. -/
theorem firstFailure_append_some {frames : List Frame} {e : StreamError}
    (h : firstFailure readData frames = some e) (more : List Frame) :
    firstFailure readData (frames ++ more) = some e := by
  induction frames with
  | nil => cases h
  | cons f rest ih =>
    unfold firstFailure at h
    rw [List.cons_append, firstFailure]
    cases hread : readFrame readData f.text with
    | error e' =>
      rw [hread] at h
      exact h
    | ok event =>
      rw [hread] at h
      exact ih h

/-- The frame behind good ones is reached. -/
theorem mem_reached_of_frames {frames before later : List Frame} {f : Frame}
    (h : firstFailure readData before = none) (hframes : frames = before ++ f :: later) :
    f ∈ reachedFrames readData frames := by
  rw [hframes, reachedFrames_append h]
  apply List.mem_append_right
  unfold reachedFrames
  split <;> exact List.mem_cons_self

/-- A frame that is reached lies behind good ones. -/
theorem exists_of_reached {frames : List Frame} {f : Frame}
    (h : f ∈ reachedFrames readData frames) :
    ∃ before later, frames = before ++ f :: later ∧ firstFailure readData before = none := by
  induction frames with
  | nil => cases h
  | cons first rest ih =>
    unfold reachedFrames at h
    cases hread : readFrame readData first.text with
    | error e =>
      rw [hread] at h
      obtain rfl := List.mem_singleton.mp h
      exact ⟨[], rest, rfl, rfl⟩
    | ok event =>
      rw [hread] at h
      rcases List.mem_cons.mp h with rfl | h
      · exact ⟨[], rest, rfl, rfl⟩
      · obtain ⟨before, later, rfl, hbefore⟩ := ih h
        refine ⟨first :: before, later, rfl, ?_⟩
        rw [firstFailure, hread]
        exact hbefore

/-- The frame of the first event. -/
theorem exists_of_goodEvents {frames : List Frame} (h : goodEvents readData frames ≠ []) :
    ∃ before f later, frames = before ++ f :: later ∧
      firstFailure readData (before ++ [f]) = none ∧
      goodEvents readData (before ++ [f]) ≠ [] := by
  -- Induction on the frames, up to the first one that yields an event.
  induction frames with
  | nil => exact absurd rfl h
  | cons first rest ih =>
    unfold goodEvents at h
    cases hread : readFrame readData first.text with
    | error e =>
      rw [hread] at h
      exact absurd rfl h
    | ok event =>
      rw [hread] at h
      -- the head frame is a comment or empty: the event comes from a later frame
      by_cases hevent : event.toList = []
      · dsimp only at h
        rw [hevent, List.nil_append] at h
        obtain ⟨before, f, later, rfl, hfine, hsome⟩ := ih h
        refine ⟨first :: before, f, later, rfl, ?_, ?_⟩
        · rw [List.cons_append, firstFailure, hread]
          exact hfine
        · rw [List.cons_append, goodEvents, hread]
          dsimp only
          rw [hevent, List.nil_append]
          exact hsome
      -- the head frame itself yields it
      · refine ⟨[], first, rest, rfl, ?_, ?_⟩
        · rw [List.nil_append, firstFailure, hread]
          rfl
        · rw [List.nil_append, goodEvents, hread]
          exact fun heq => hevent (List.append_eq_nil_iff.mp heq).1

end Reading

/-! ## Runs of the reader -/

section Runs

variable {E : Type} {readData : List Char → Except StreamError E}

namespace FluxSseParser

/-- The buffer once the bytes are decoded, before it is drained. -/
def filled (p : FluxSseParser) (bytes : List UInt8) : List Char :=
  p.buffer ++ (p.decoder.decode bytes).2

/-- The parser after a push that did not fail. -/
def drained (p : FluxSseParser) (bytes : List UInt8) : FluxSseParser :=
  ⟨(p.decoder.decode bytes).1, (splitFrames (p.filled bytes)).2⟩

theorem push_eq (p : FluxSseParser) (bytes : List UInt8) :
    p.push readData bytes =
      match pushFailure readData (p.filled bytes) with
      | some e => .error e
      | none => .ok (p.drained bytes, goodEvents readData (splitFrames (p.filled bytes)).1) := by
  unfold push drain
  rw [show p.buffer ++ (p.decoder.decode bytes).2 = p.filled bytes from rfl]
  dsimp only
  rw [readFrames_eq]
  unfold pushFailure
  cases firstFailure readData (splitFrames (p.filled bytes)).1 with
  | some e => rfl
  | none =>
    dsimp only [bind, Except.bind]
    unfold assertFrameSize
    by_cases hsize : maxLiveEventBytes < frameBytes (splitFrames (p.filled bytes)).2
    · rw [if_pos hsize, if_pos hsize]
    · rw [if_neg hsize, if_neg hsize]
      rfl

theorem filled_append (p : FluxSseParser) (xs ys : List UInt8) :
    p.filled (xs ++ ys) = p.filled xs ++ ((p.decoder.decode xs).1.decode ys).2 := by
  unfold filled
  rw [TextDecoder.decode_append, List.append_assoc]

theorem splitFrames_filled_append (p : FluxSseParser) (xs ys : List UInt8) :
    splitFrames (p.filled (xs ++ ys)) =
      ((splitFrames (p.filled xs)).1 ++ (splitFrames ((p.drained xs).filled ys)).1,
        (splitFrames ((p.drained xs).filled ys)).2) := by
  rw [filled_append, splitFrames_append]
  rfl

theorem flush_eq (d : TextDecoder) : d.flush = [] ∨ d.flush = [replacement] := by
  unfold TextDecoder.flush
  cases d.pending with
  | none => exact .inl rfl
  | some sequence =>
    cases d.bomSeen with
    | true => exact .inr rfl
    | false =>
      refine .inr ?_
      show (if replacement = byteOrderMark then [] else [replacement]) = [replacement]
      exact if_neg (by decide)

/-- What the decoder gives at the end completes no separator. -/
theorem findSeparator_flush {text : List Char} (h : findSeparator text = none) (d : TextDecoder) :
    findSeparator (text ++ d.flush) = none := by
  rcases flush_eq d with hflush | hflush
  · rw [hflush, List.append_nil]
    exact h
  · rw [hflush]
    cases hfind : findSeparator (text ++ [replacement]) with
    | none => rfl
    | some found =>
      exfalso
      obtain ⟨frame, n, rest⟩ := found
      obtain ⟨sep, hsep, -, htext, hwhole, -⟩ := findSeparator_spec hfind
      obtain ⟨before, y, x, hends, -, -, hx⟩ := separator_ends hsep
      rcases List.eq_nil_or_concat rest with rfl | ⟨rest, c, rfl⟩
      · rw [hends, List.append_nil, show before ++ [y, x] = before ++ [y] ++ [x] by simp,
          ← List.append_assoc] at htext
        exact hx (List.append_inj' htext rfl |>.2 |> List.singleton_inj.mp).symm
      · rw [List.concat_eq_append, ← List.append_assoc, ← List.append_assoc] at htext
        rw [(List.append_inj' htext rfl).1, findSeparator_append hwhole] at h
        cases h

theorem finish_eq (p : FluxSseParser) (h : findSeparator p.buffer = none) :
    p.finish readData = readLast readData (p.buffer ++ p.decoder.flush) := by
  unfold finish drainAll readLast
  dsimp only
  rw [splitFrames_none (findSeparator_flush h p.decoder)]
  rw [show readFrames readData ([], p.buffer ++ p.decoder.flush).1 = .ok [] from rfl]
  dsimp only [bind, Except.bind]
  by_cases hnil : p.buffer ++ p.decoder.flush = []
  · rw [if_pos hnil, if_pos hnil]
    rfl
  · rw [if_neg hnil, if_neg hnil]
    cases readFrame readData (p.buffer ++ p.decoder.flush) <;> rfl

/-- The whole stream in one chunk. -/
theorem consume_single (p : FluxSseParser) (bytes : List UInt8) :
    p.consume readData [bytes] =
      match pushFailure readData (p.filled bytes) with
      | some e => ([], some e)
      | none =>
        match readLast readData ((p.drained bytes).buffer ++ (p.drained bytes).decoder.flush) with
        | .error e => (goodEvents readData (splitFrames (p.filled bytes)).1, some e)
        | .ok last => (goodEvents readData (splitFrames (p.filled bytes)).1 ++ last, none) := by
  unfold consume
  rw [push_eq]
  cases pushFailure readData (p.filled bytes) with
  | some e => rfl
  | none =>
    dsimp only
    unfold consume
    rw [finish_eq _ (findSeparator_rest _)]
    cases readLast readData ((p.drained bytes).buffer ++ (p.drained bytes).decoder.flush) with
    | error e => simp
    | ok last => simp

/-- The last text of the stream in one chunk. -/
abbrev flushed (p : FluxSseParser) (bytes : List UInt8) : List Char :=
  (p.decoder.decode bytes).1.flush

theorem consume_single_of_failure {p : FluxSseParser} {bytes : List UInt8} {e : StreamError}
    (hfail : streamFailure readData (p.filled bytes) (p.flushed bytes) = some e)
    (hevents : goodEvents readData (splitFrames (p.filled bytes)).1 = []) :
    p.consume readData [bytes] = ([], some e) := by
  rw [consume_single]
  unfold streamFailure at hfail
  cases hpush : pushFailure readData (p.filled bytes) with
  | some e' =>
    rw [hpush] at hfail
    cases hfail
    rfl
  | none =>
    rw [hpush] at hfail
    dsimp only at hfail ⊢
    rw [show (p.drained bytes).buffer = (splitFrames (p.filled bytes)).2 from rfl,
      show (p.drained bytes).decoder.flush = p.flushed bytes from rfl]
    cases hlast : readLast readData ((splitFrames (p.filled bytes)).2 ++ p.flushed bytes) with
    | error e' =>
      rw [hlast] at hfail
      cases hfail
      dsimp only
      rw [hevents]
    | ok last =>
      rw [hlast] at hfail
      cases hfail

theorem consume_single_of_push {p : FluxSseParser} {bytes : List UInt8} {e : StreamError}
    (hpush : pushFailure readData (p.filled bytes) = some e) :
    p.consume readData [bytes] = ([], some e) := by
  rw [consume_single, hpush]

/-! ## Chunks of a safe byte string -/

theorem frameBytes_append (xs ys : List Char) :
    frameBytes (xs ++ ys) = frameBytes xs + frameBytes ys := by
  unfold frameBytes
  rw [List.map_append, List.sum_append]

theorem frameBytes_le_of_begins {xs ys : List Char} (h : xs <+: ys) :
    frameBytes xs ≤ frameBytes ys := by
  obtain ⟨zs, rfl⟩ := h
  rw [frameBytes_append]
  exact Nat.le_add_right _ _

theorem frameBytes_separator {sep : List Char} (h : sep ∈ separators) :
    frameBytes sep.dropLast = sep.length - 1 := by
  simp only [separators, List.mem_cons, List.not_mem_nil, or_false] at h
  rcases h with rfl | rfl | rfl <;> rfl

theorem readFrame_of_large {text : List Char} (h : maxLiveEventBytes < frameBytes text) :
    readFrame readData text = .error frameSizeError := by
  unfold readFrame assertFrameSize
  rw [if_pos h]
  rfl

section Push

variable {p : FluxSseParser} {chunk : List UInt8}
variable (hfine : firstFailure readData (splitFrames (p.filled chunk)).1 = none) (ys : List UInt8)
include hfine

theorem pushFailure_append : pushFailure readData (p.filled (chunk ++ ys)) =
    pushFailure readData ((p.drained chunk).filled ys) := by
  unfold pushFailure
  rw [splitFrames_filled_append]
  dsimp only
  rw [firstFailure_append hfine]

theorem goodEvents_filled_append :
    goodEvents readData (splitFrames (p.filled (chunk ++ ys))).1 =
      goodEvents readData (splitFrames (p.filled chunk)).1 ++
        goodEvents readData (splitFrames ((p.drained chunk).filled ys)).1 := by
  rw [splitFrames_filled_append]
  exact goodEvents_append hfine _

theorem reachedFrames_filled_append :
    reachedFrames readData (splitFrames (p.filled (chunk ++ ys))).1 =
      (splitFrames (p.filled chunk)).1 ++
        reachedFrames readData (splitFrames ((p.drained chunk).filled ys)).1 := by
  rw [splitFrames_filled_append]
  exact reachedFrames_append hfine _

theorem streamFailure_append :
    streamFailure readData (p.filled (chunk ++ ys)) (p.flushed (chunk ++ ys)) =
      streamFailure readData ((p.drained chunk).filled ys) ((p.drained chunk).flushed ys) := by
  unfold streamFailure
  rw [pushFailure_append hfine, splitFrames_filled_append]
  unfold flushed
  rw [TextDecoder.decode_append]
  rfl

theorem chunkSafe_rest (h : ChunkSafe readData (p.filled (chunk ++ ys)) (p.flushed (chunk ++ ys))) :
    ChunkSafe readData ((p.drained chunk).filled ys) ((p.drained chunk).flushed ys) := by
  unfold ChunkSafe at h ⊢
  rw [pushFailure_append hfine, goodEvents_filled_append hfine, reachedFrames_filled_append hfine,
    streamFailure_append hfine, List.append_eq_nil_iff] at h
  have hlater : (∀ f ∈ (splitFrames (p.filled chunk)).1 ++
        reachedFrames readData (splitFrames ((p.drained chunk).filled ys)).1, crowded f = false) →
      ∀ f ∈ reachedFrames readData (splitFrames ((p.drained chunk).filled ys)).1,
        crowded f = false := fun hall f hf => hall f (List.mem_append_right _ hf)
  exact h.imp (And.imp_right hlater) (And.imp And.right (Or.imp_left hlater))

end Push

/-- Where a push fails on what is left in the buffer, the stream fails on the frame that has begun
there, too, or that frame is crowded. -/
theorem large_rest {p : FluxSseParser} {chunk : List UInt8}
    (hfirst : firstFailure readData (splitFrames (p.filled chunk)).1 = none)
    (hlarge : maxLiveEventBytes < frameBytes (splitFrames (p.filled chunk)).2) (ys : List UInt8) :
    (pushFailure readData (p.filled (chunk ++ ys)) = some frameSizeError ∧
        goodFrames readData (splitFrames (p.filled (chunk ++ ys))).1 =
          (splitFrames (p.filled chunk)).1.length) ∨
      ∃ f later, (splitFrames (p.filled (chunk ++ ys))).1 =
        (splitFrames (p.filled chunk)).1 ++ f :: later ∧ crowded f = true := by
  -- The rest of the chunk is too large already; what decides is whether its frame ever ends.
  cases hfind : findSeparator ((p.drained chunk).filled ys) with
  -- no separator comes: the buffer only grows, so it is too large at the end, too
  | none =>
    left
    rw [pushFailure_append hfirst, splitFrames_filled_append, splitFrames_none hfind]
    constructor
    · unfold pushFailure
      rw [splitFrames_none hfind]
      have hmore : maxLiveEventBytes < frameBytes ((p.drained chunk).filled ys) :=
        Nat.lt_of_lt_of_le hlarge (frameBytes_le_of_begins (List.prefix_append _ _))
      exact if_pos hmore
    · exact goodFrames_append hfirst []
  -- the frame ends: it is too large itself, or only with the separator's bytes
  | some found =>
    obtain ⟨frame, n, after⟩ := found
    obtain ⟨sep, hsep, hlength, hbegin⟩ := rest_prefix (findSeparator_rest (p.filled chunk)) hfind
    have hbytes : frameBytes (splitFrames (p.filled chunk)).2 ≤ frameBytes frame + (n - 1) := by
      have hle := frameBytes_le_of_begins hbegin
      rwa [frameBytes_append, frameBytes_separator hsep, hlength] at hle
    by_cases hover : maxLiveEventBytes < frameBytes frame
    · left
      have hread : readFrame readData frame = .error frameSizeError := readFrame_of_large hover
      rw [pushFailure_append hfirst, splitFrames_filled_append]
      constructor
      · unfold pushFailure
        rw [splitFrames_some hfind]
        dsimp only
        rw [firstFailure, hread]
      · dsimp only
        rw [goodFrames_append hfirst, splitFrames_some hfind]
        unfold goodFrames
        rw [List.takeWhile_cons, hread]
        rfl
    -- only its separator made the buffer too large, which is what crowded means
    · right
      refine ⟨⟨frame, n⟩, (splitFrames after).1, ?_, ?_⟩
      · rw [splitFrames_filled_append, splitFrames_some hfind]
      · unfold crowded
        simp only [Bool.and_eq_true, decide_eq_true_eq]
        omega

/-- A push that fails ends the stream as the single chunk does. -/
theorem consume_single_of_push_append {p : FluxSseParser} {chunk ys : List UInt8} {e : StreamError}
    (hsafe : ChunkSafe readData (p.filled (chunk ++ ys)) (p.flushed (chunk ++ ys)))
    (hpush : pushFailure readData (p.filled chunk) = some e) :
    p.consume readData [chunk ++ ys] = ([], some e) := by
  cases hfirst : firstFailure readData (splitFrames (p.filled chunk)).1 with
  | some e' =>
    unfold pushFailure at hpush
    rw [hfirst] at hpush
    cases hpush
    apply consume_single_of_push
    unfold pushFailure
    rw [splitFrames_filled_append]
    dsimp only
    rw [firstFailure_append_some hfirst]
  | none =>
    -- the push fails on what is left in the buffer
    unfold pushFailure at hpush
    rw [hfirst] at hpush
    dsimp only at hpush
    split at hpush
    · next hlarge =>
      cases hpush
      rcases large_rest hfirst hlarge ys with ⟨hwhole, -⟩ | ⟨f, later, hframes, hcrowded⟩
      · exact consume_single_of_push hwhole
      · have hreached := mem_reached_of_frames hfirst hframes
        have hnot : ¬∀ f ∈ reachedFrames readData (splitFrames (p.filled (chunk ++ ys))).1,
            crowded f = false := by
          intro hall
          rw [hall f hreached] at hcrowded
          cases hcrowded
        rcases hsafe with ⟨-, hall⟩ | ⟨hevents, hall | hsize⟩
        · exact absurd hall hnot
        · exact absurd hall hnot
        · exact consume_single_of_failure hsize hevents
    · cases hpush

/-- However a safe byte string is cut, the stream reads as it does in one chunk. -/
theorem consume_eq_single (chunks : List (List UInt8)) {p : FluxSseParser}
    (hidle : findSeparator p.buffer = none) (hsize : frameBytes p.buffer ≤ maxLiveEventBytes)
    (hsafe : ChunkSafe readData (p.filled chunks.flatten) (p.flushed chunks.flatten)) :
    p.consume readData chunks = p.consume readData [chunks.flatten] := by
  induction chunks generalizing p with
  | nil =>
    have hfilled : p.filled [] = p.buffer := List.append_nil _
    have hpush : pushFailure readData (p.filled []) = none := by
      unfold pushFailure
      rw [hfilled, splitFrames_none hidle]
      exact if_neg (Nat.not_lt.mpr hsize)
    have hdrained : p.drained [] = p := by
      unfold drained
      rw [hfilled, splitFrames_none hidle]
      rfl
    rw [List.flatten_nil, consume_single, hpush, hdrained, hfilled, splitFrames_none hidle]
    unfold consume
    rw [finish_eq p hidle]
    dsimp only
    cases readLast readData (p.buffer ++ p.decoder.flush) <;> rfl
  | cons chunk chunks ih =>
    rw [List.flatten_cons] at hsafe ⊢
    cases hpush : pushFailure readData (p.filled chunk) with
    | some e =>
      rw [consume_single_of_push_append hsafe hpush]
      unfold consume
      rw [push_eq, hpush]
    | none =>
      have hfirst : firstFailure readData (splitFrames (p.filled chunk)).1 = none := by
        unfold pushFailure at hpush
        split at hpush
        · cases hpush
        · assumption
      have hsmall : frameBytes (splitFrames (p.filled chunk)).2 ≤ maxLiveEventBytes := by
        unfold pushFailure at hpush
        rw [hfirst] at hpush
        dsimp only at hpush
        split at hpush
        · cases hpush
        · next hle => exact Nat.not_lt.mp hle
      have hrest := ih (p := p.drained chunk) (findSeparator_rest _) hsmall
        (chunkSafe_rest hfirst _ hsafe)
      have hstart : p.consume readData (chunk :: chunks) =
          (goodEvents readData (splitFrames (p.filled chunk)).1 ++
              ((p.drained chunk).consume readData [chunks.flatten]).1,
            ((p.drained chunk).consume readData [chunks.flatten]).2) := by
        rw [consume, push_eq, hpush]
        dsimp only
        rw [hrest]
      rw [hstart, consume_single, consume_single, pushFailure_append hfirst,
        goodEvents_filled_append hfirst]
      cases hlater : pushFailure readData ((p.drained chunk).filled chunks.flatten) with
      | some e =>
        -- the stream fails later, so no event has been read before
        have hnone : goodEvents readData (splitFrames (p.filled chunk)).1 = [] := by
          rcases hsafe with ⟨hok, -⟩ | ⟨hevents, -⟩
          · rw [pushFailure_append hfirst, hlater] at hok
            cases hok
          · rw [goodEvents_filled_append hfirst] at hevents
            exact (List.append_eq_nil_iff.mp hevents).1
        dsimp only
        rw [hnone, List.nil_append]
      | none =>
        have hlast : (p.drained (chunk ++ chunks.flatten)) =
            (p.drained chunk).drained chunks.flatten := by
          unfold drained
          rw [splitFrames_filled_append, TextDecoder.decode_append]
          rfl
        rw [hlast]
        dsimp only
        cases readLast readData (((p.drained chunk).drained chunks.flatten).buffer ++
            ((p.drained chunk).drained chunks.flatten).decoder.flush) with
        | error e => rfl
        | ok last =>
          dsimp only
          rw [List.append_assoc]

/-! ## The frame on which the stream fails -/

/-- How many frames have been read when the stream fails. -/
def failingFrame (readData : List Char → Except StreamError E) (p : FluxSseParser) :
    List (List UInt8) → Option Nat
  | [] =>
    match p.finish readData with
    | .error _ => some 0
    | .ok _ => none
  | chunk :: chunks =>
    match p.push readData chunk with
    | .error _ => some (goodFrames readData (splitFrames (p.filled chunk)).1)
    | .ok (p', _) =>
      (failingFrame readData p' chunks).map ((splitFrames (p.filled chunk)).1.length + ·)

theorem failingFrame_cons (p : FluxSseParser) (chunk : List UInt8) (chunks : List (List UInt8)) :
    failingFrame readData p (chunk :: chunks) =
      match pushFailure readData (p.filled chunk) with
      | some _ => some (goodFrames readData (splitFrames (p.filled chunk)).1)
      | none => (failingFrame readData (p.drained chunk) chunks).map
          ((splitFrames (p.filled chunk)).1.length + ·) := by
  rw [failingFrame, push_eq]
  cases pushFailure readData (p.filled chunk) <;> rfl

/-- There is such a frame where the stream fails. -/
theorem failingFrame_isSome_iff (chunks : List (List UInt8)) (p : FluxSseParser) :
    (failingFrame readData p chunks).isSome = (p.consume readData chunks).2.isSome := by
  induction chunks generalizing p with
  | nil =>
    unfold failingFrame consume
    cases p.finish readData <;> rfl
  | cons chunk chunks ih =>
    unfold failingFrame consume
    cases hpush : p.push readData chunk with
    | error e => rfl
    | ok next =>
      obtain ⟨p', events⟩ := next
      dsimp only
      rw [Option.isSome_map, ih]

/-- Where every crowded frame that is reached is bad anyway, the frame on which the stream fails, by
the size limit or otherwise, does not depend on the cuts. -/
theorem failingFrame_flatten (chunks : List (List UInt8)) {p : FluxSseParser}
    (hidle : findSeparator p.buffer = none) (hsize : frameBytes p.buffer ≤ maxLiveEventBytes)
    (hroomy : ∀ f ∈ reachedFrames readData (splitFrames (p.filled chunks.flatten)).1,
      crowded f = true → (readFrame readData f.text).isOk = false) :
    failingFrame readData p chunks = failingFrame readData p [chunks.flatten] := by
  -- Induction on the chunks; the parser keeps its unread tail between them.
  induction chunks generalizing p with
  | nil =>
    have hfilled : p.filled [] = p.buffer := List.append_nil _
    have hpush : pushFailure readData (p.filled []) = none := by
      unfold pushFailure
      rw [hfilled, splitFrames_none hidle]
      exact if_neg (Nat.not_lt.mpr hsize)
    have hdrained : p.drained [] = p := by
      unfold drained
      rw [hfilled, splitFrames_none hidle]
      rfl
    rw [List.flatten_nil, failingFrame_cons, hpush, hdrained, hfilled, splitFrames_none hidle]
    dsimp only
    simp
  | cons chunk chunks ih =>
    rw [List.flatten_cons] at hroomy ⊢
    rw [failingFrame_cons, failingFrame_cons]
    cases hfirst : firstFailure readData (splitFrames (p.filled chunk)).1 with
    -- a complete frame of this chunk fails, and so it does in one chunk
    | some e =>
      have hpush : pushFailure readData (p.filled chunk) = some e := by
        unfold pushFailure
        rw [hfirst]
      have hwhole : pushFailure readData (p.filled (chunk ++ chunks.flatten)) = some e := by
        unfold pushFailure
        rw [splitFrames_filled_append]
        dsimp only
        rw [firstFailure_append_some hfirst]
      rw [hpush, hwhole, splitFrames_filled_append]
      dsimp only
      rw [goodFrames_append_some hfirst]
    | none =>
      -- the tail of this chunk is too large before its frame has ended
      by_cases hlarge : maxLiveEventBytes < frameBytes (splitFrames (p.filled chunk)).2
      · have hpush : pushFailure readData (p.filled chunk) = some frameSizeError := by
          unfold pushFailure
          rw [hfirst]
          exact if_pos hlarge
        rcases large_rest hfirst hlarge chunks.flatten with
          ⟨hwhole, hgood⟩ | ⟨f, later, hframes, hcrowded⟩
        · rw [hpush, hwhole]
          dsimp only
          rw [hgood, goodFrames_of_firstFailure hfirst]
        · -- the crowded frame is bad, so that the stream fails on it in one chunk, too
          have hbad := hroomy f (mem_reached_of_frames hfirst hframes) hcrowded
          obtain ⟨e, hread⟩ : ∃ e, readFrame readData f.text = .error e := by
            cases hread : readFrame readData f.text with
            | error e => exact ⟨e, rfl⟩
            | ok event =>
              rw [hread] at hbad
              cases hbad
          have hwhole : pushFailure readData (p.filled (chunk ++ chunks.flatten)) = some e := by
            unfold pushFailure
            rw [hframes, firstFailure_append hfirst, firstFailure, hread]
          rw [hpush, hwhole, hframes]
          dsimp only
          rw [goodFrames_append hfirst, goodFrames_of_firstFailure hfirst]
          unfold goodFrames
          rw [List.takeWhile_cons, hread]
          rfl
      -- nothing fails yet: the frames of this chunk are counted and the tail is passed on
      · have hpush : pushFailure readData (p.filled chunk) = none := by
          unfold pushFailure
          rw [hfirst]
          exact if_neg hlarge
        have hrest := ih (findSeparator_rest _) (Nat.not_lt.mp hlarge) fun f hf =>
          hroomy f (by
            rw [reachedFrames_filled_append hfirst]
            exact List.mem_append_right _ hf)
        have hlast : p.drained (chunk ++ chunks.flatten) =
            (p.drained chunk).drained chunks.flatten := by
          unfold drained
          rw [splitFrames_filled_append, TextDecoder.decode_append]
          rfl
        rw [hpush, pushFailure_append hfirst, hlast, splitFrames_filled_append]
        dsimp only
        rw [hrest, failingFrame_cons]
        cases pushFailure readData ((p.drained chunk).filled chunks.flatten) with
        | some e =>
          dsimp only
          rw [goodFrames_append hfirst]
          rfl
        | none =>
          dsimp only
          rw [Option.map_map, List.length_append]
          congr 1
          funext n
          exact (Nat.add_assoc _ _ _).symm

/-! ## Cuts that show -/

section Cuts

variable {bytes : List UInt8}

/-- The text of a whole stream. -/
abbrev decoded (bytes : List UInt8) : List Char := (({} : TextDecoder).decode bytes).2

theorem filled_empty (bytes : List UInt8) : ({} : FluxSseParser).filled bytes = decoded bytes := rfl

/-- A chunk that ends with the first event yields it, whatever follows. -/
theorem exists_chunks_of_event
    (hevents : goodEvents readData (splitFrames (decoded bytes)).1 ≠ []) :
    ∃ xs ys, bytes = xs ++ ys ∧ (consume readData {} [xs, ys]).1 ≠ [] := by
  obtain ⟨before, f, later, hframes, hfine, hsome⟩ := exists_of_goodEvents hevents
  obtain ⟨pre, sep, after, hsep, -, htext, hwhole, -⟩ := exists_frame hframes
  obtain ⟨b, y, x, hends, -, -, hx⟩ := separator_ends hsep
  have hcut : decoded bytes = (pre ++ (f.text ++ (b ++ [y]))) ++ x :: after := by
    rw [htext, hends]
    simp
  obtain ⟨xs, ys, rfl, hxs, -⟩ := TextDecoder.exists_cut hcut hx
  refine ⟨xs, ys, rfl, ?_⟩
  have hfilled : ({} : FluxSseParser).filled xs = pre ++ (f.text ++ sep) := by
    rw [filled_empty]
    unfold decoded
    rw [hxs, hends]
    simp
  have hpush : pushFailure readData (({} : FluxSseParser).filled xs) = none := by
    rw [hfilled]
    unfold pushFailure
    rw [hwhole]
    dsimp only
    rw [hfine]
    exact if_neg (by decide)
  rw [consume, push_eq, hpush, hfilled, hwhole]
  exact fun hnil => hsome (List.append_eq_nil_iff.mp hnil).1

/-- A chunk that ends inside the separator of a crowded frame fails on the size limit. -/
theorem exists_chunks_of_crowded {f : Frame}
    (hreached : f ∈ reachedFrames readData (splitFrames (decoded bytes)).1)
    (hcrowded : crowded f = true) :
    ∃ xs ys before later, bytes = xs ++ ys ∧ (splitFrames (decoded bytes)).1 = before ++ f :: later ∧
      firstFailure readData before = none ∧
      consume readData {} [xs, ys] = ([], some frameSizeError) ∧
      failingFrame readData {} [xs, ys] = some before.length := by
  obtain ⟨before, later, hframes, hfine⟩ := exists_of_reached hreached
  obtain ⟨pre, sep, after, hsep, hlength, htext, -, hshort⟩ := exists_frame hframes
  -- The separator is cut before its last character, so its first part stands in the buffer alone.
  obtain ⟨b, y, x, hends, hdrop, hy, -⟩ := separator_ends hsep
  have hcut : decoded bytes = (pre ++ (f.text ++ b)) ++ y :: x :: after := by
    rw [htext, hends]
    simp
  obtain ⟨xs, ys, rfl, hxs, -⟩ := TextDecoder.exists_cut hcut hy
  have hfilled : ({} : FluxSseParser).filled xs = pre ++ (f.text ++ sep.dropLast) := by
    rw [filled_empty]
    unfold decoded
    rw [hxs, hdrop]
    simp
  -- with that part the buffer is larger than the limit, although the frame is not
  have hpush : pushFailure readData (({} : FluxSseParser).filled xs) = some frameSizeError := by
    rw [hfilled]
    unfold pushFailure
    rw [hshort]
    dsimp only
    rw [hfine]
    refine if_pos ?_
    rw [frameBytes_append, frameBytes_separator hsep, hlength]
    unfold crowded at hcrowded
    exact of_decide_eq_true (Bool.and_eq_true_iff.mp hcrowded).2
  refine ⟨xs, ys, before, later, rfl, hframes, hfine, ?_, ?_⟩
  · rw [consume, push_eq, hpush]
  · rw [failingFrame_cons, hpush, hfilled, hshort]
    dsimp only
    rw [goodFrames_of_firstFailure hfine]

/-- In one chunk a stream does not fail on a good frame. -/
theorem failingFrame_ne_of_good {before later : List Frame} {f : Frame}
    (hframes : (splitFrames (decoded bytes)).1 = before ++ f :: later)
    (hfine : firstFailure readData before = none) (hgood : (readFrame readData f.text).isOk = true) :
    failingFrame readData {} [bytes] ≠ some before.length := by
  have hbehind : before.length < goodFrames readData (splitFrames (decoded bytes)).1 := by
    rw [hframes, goodFrames_append hfine]
    unfold goodFrames
    rw [List.takeWhile_cons, hgood, if_pos rfl, List.length_cons]
    omega
  rw [failingFrame_cons, filled_empty]
  cases pushFailure readData (decoded bytes) with
  | some e =>
    intro h
    have hsame := Option.some.inj h
    omega
  | none =>
    intro h
    obtain ⟨n, -, hn⟩ := Option.map_eq_some_iff.mp h
    rw [hframes, List.length_append, List.length_cons] at hn
    omega

end Cuts

theorem consume_chunks (readData : List Char → Except StreamError E) (bytes : List UInt8) :
    (∀ chunks : List (List UInt8), chunks.flatten = bytes →
      consume readData {} chunks = consume readData {} [bytes] ∧
        goodEvents readData (splitFrames (decoded bytes)).1 <+: (consume readData {} chunks).1) ↔
      ChunkSafe readData (decoded bytes) (({} : TextDecoder).decode bytes).1.flush := by
  constructor
  -- Each clause of the condition is read off one way to cut the bytes in two.
  · intro hall
    -- cut after the first event: it is yielded there, and lost when all comes in one chunk
    have hevents : ∀ e, pushFailure readData (decoded bytes) = some e →
        goodEvents readData (splitFrames (decoded bytes)).1 = [] := by
      intro e hpush
      by_contra hsome
      obtain ⟨xs, ys, rfl, hne⟩ := exists_chunks_of_event hsome
      rw [(hall [xs, ys] (by simp)).1, consume_single_of_push hpush] at hne
      exact hne rfl
    -- cut inside the separator of a crowded frame: the size limit triggers there
    have hsize : (¬∀ f ∈ reachedFrames readData (splitFrames (decoded bytes)).1,
        crowded f = false) → consume readData {} [bytes] = ([], some frameSizeError) := by
      intro hnot
      push Not at hnot
      obtain ⟨f, hreached, hcrowded⟩ := hnot
      obtain ⟨xs, ys, before, later, rfl, -, -, hfails, -⟩ :=
        exists_chunks_of_crowded hreached (Bool.eq_true_of_not_eq_false hcrowded)
      rw [← (hall [xs, ys] (by simp)).1, hfails]
    cases hpush : pushFailure readData (decoded bytes) with
    | some e =>
      refine .inr ⟨hevents e hpush, ?_⟩
      by_cases hcrowd : ∀ f ∈ reachedFrames readData (splitFrames (decoded bytes)).1,
          crowded f = false
      · exact .inl hcrowd
      · have hwhole := hsize hcrowd
        rw [consume_single_of_push hpush] at hwhole
        refine .inr ?_
        unfold streamFailure
        rw [hpush]
        exact congrArg Prod.snd hwhole
    -- no frame fails on its own, so the stream in one chunk ends with its last frame
    | none =>
      by_cases hcrowd : ∀ f ∈ reachedFrames readData (splitFrames (decoded bytes)).1,
          crowded f = false
      · exact .inl ⟨hpush, hcrowd⟩
      · have hwhole := hsize hcrowd
        rw [consume_single, filled_empty, hpush] at hwhole
        dsimp only at hwhole
        cases hlast : readLast readData ((splitFrames (decoded bytes)).2 ++
            (({} : TextDecoder).decode bytes).1.flush) with
        | error e =>
          rw [show (drained {} bytes).buffer ++ (drained {} bytes).decoder.flush =
            (splitFrames (decoded bytes)).2 ++ (({} : TextDecoder).decode bytes).1.flush from rfl,
            hlast] at hwhole
          refine .inr ⟨congrArg Prod.fst hwhole, .inr ?_⟩
          unfold streamFailure
          rw [hpush]
          dsimp only
          rw [hlast]
          exact congrArg Prod.snd hwhole
        | ok last =>
          rw [show (drained {} bytes).buffer ++ (drained {} bytes).decoder.flush =
            (splitFrames (decoded bytes)).2 ++ (({} : TextDecoder).decode bytes).1.flush from rfl,
            hlast] at hwhole
          cases congrArg Prod.snd hwhole
  -- Under the condition every way to cut the bytes is as good as one chunk.
  · rintro hsafe chunks rfl
    have heq := consume_eq_single chunks (p := {}) rfl (Nat.zero_le _) hsafe
    refine ⟨heq, ?_⟩
    rw [heq, consume_single, filled_empty]
    cases hpush : pushFailure readData (decoded chunks.flatten) with
    | some e =>
      rcases hsafe with ⟨hok, -⟩ | ⟨hevents, -⟩
      · rw [hpush] at hok
        cases hok
      · simp [hevents]
    | none =>
      dsimp only
      split
      · exact List.prefix_refl _
      · exact List.prefix_append _ _

/-- A byte string reads the same in all its chunkings, with every event before the first bad frame
delivered, exactly when it is safe; and the stream fails on the same frame in all of them exactly when
every crowded frame up to the first bad one is bad itself. -/
theorem consume_chunks_iff (readData : List Char → Except StreamError E) (bytes : List UInt8) :
    ((∀ chunks : List (List UInt8), chunks.flatten = bytes →
      consume readData {} chunks = consume readData {} [bytes] ∧
        goodEvents readData (splitFrames (decoded bytes)).1 <+: (consume readData {} chunks).1) ↔
      ChunkSafe readData (decoded bytes) (({} : TextDecoder).decode bytes).1.flush) ∧
    ((∀ chunks : List (List UInt8), chunks.flatten = bytes →
      failingFrame readData {} chunks = failingFrame readData {} [bytes]) ↔
      ∀ f ∈ reachedFrames readData (splitFrames (decoded bytes)).1,
        crowded f = true → (readFrame readData f.text).isOk = false) := by
  constructor
  · exact consume_chunks readData bytes
  constructor
  · intro hall f hreached hcrowded
    obtain ⟨xs, ys, before, later, rfl, hframes, hfine, -, hfails⟩ :=
      exists_chunks_of_crowded hreached hcrowded
    by_contra hgood
    have hone := hall [xs, ys] (by simp)
    exact failingFrame_ne_of_good hframes hfine (Bool.eq_true_of_not_eq_false hgood)
      (hone.symm.trans hfails)
  · rintro hroomy chunks rfl
    exact failingFrame_flatten chunks rfl (Nat.zero_le _) hroomy

/-- The bytes of a text in ASCII. -/
def asciiBytes (text : String) : List UInt8 := text.toList.map fun c => UInt8.ofNat c.toNat

/-- Accepts one event, and names it. -/
def readReady (data : List Char) : Except StreamError String :=
  if data = "\x7b\"protocol\":\"fluxfast/1\",\"type\":\"ready\",\"keys\":[]\x7d".toList then
    .ok "ready"
  else .error (.protocol "FluxFast SSE event contains malformed JSON")

def readyFrame : List UInt8 := asciiBytes
  "event: fluxfast\ndata: \x7b\"protocol\":\"fluxfast/1\",\"type\":\"ready\",\"keys\":[]\x7d\n\n"

/-- A valid event is lost where a bad frame arrives in the same chunk. -/
theorem event_lost_in_chunk :
    consume readReady {} [readyFrame, asciiBytes "event: other\n\n"] =
        (["ready"], some (.protocol "Unknown SSE event 'other'")) ∧
      consume readReady {} [readyFrame ++ asciiBytes "event: other\n\n"] =
        ([], some (.protocol "Unknown SSE event 'other'")) := by
  constructor <;> decide

end FluxSseParser

end Runs

end FluxFast.Core

import FluxFast.Server.BrokerRuns

/-!
# LiveStream — the generator behind a live response

`iter_live_events` starts a task that pumps the events of a broker subscription into a memory object
stream, lets the other tasks run once, hands over the ready frame and then waits for events with a
deadline.  The generator is written over any broker; the two brokers of `live/memory.py` and
`live/redis.py` are its instances.

The event loop is followed only as far as the order of the first turns of the two tasks goes.  Every
other step of a task may come at any time.
-/

namespace FluxFast.Server

open FluxFast.Theory
open FluxFast.Core (LiveEvent)

/-! ## The hand-over between the two tasks -/

/-- A memory object stream: it keeps what was sent until it is received, in order.  A sender may
have to wait, but not for an empty stream, and a receive that is cancelled takes nothing. -/
structure ObjectStream (E : Type) where
  State : Type
  new : State
  held : State → List E
  /-- `none` while the sender waits. -/
  send : State → E → Option State
  /-- `none` while the receiver waits. -/
  receive : State → Option (E × State)
  cancel : State → State
  held_new : held new = []
  held_send : ∀ {s e s'}, send s e = some s' → held s' = held s ++ [e]
  held_receive : ∀ {s e s'}, receive s = some (e, s') → held s = e :: held s'
  held_cancel : ∀ s, held (cancel s) = held s
  receive_none : ∀ {s}, receive s = none → held s = []
  send_of_empty : ∀ {s} (e : E), held s = [] → (send s e).isSome = true

/-- `create_memory_object_stream(1)`. -/
def oneSlot (E : Type) : ObjectStream E where
  State := List E
  new := []
  held := id
  -- a stream of one place refuses while it is taken
  send s e := if s.length < 1 then some (s ++ [e]) else none
  receive
    | [] => none
    | e :: s => some (e, s)
  cancel := id
  held_new := rfl
  held_send := by
    intro s e s' h
    split at h
    · exact (Option.some.inj h).symm
    · cases h
  held_receive := by
    intro s e s' h
    cases s with
    | nil => cases h
    | cons a s =>
      obtain ⟨rfl, rfl⟩ := Prod.mk.inj (Option.some.inj h)
      rfl
  held_cancel _ := rfl
  receive_none := by
    intro s h
    cases s with
    | nil => rfl
    | cons a s => cases h
  send_of_empty := by
    intro s e h
    have hs : s = [] := h
    simp [hs]

/-! ## The generator -/

/-- A broker as one subscription of it sees it. -/
structure BrokerSide (E : Type) where
  State : Type
  /-- What the other tasks, other processes and the network do. -/
  Action : Type
  step : State → Action → Option State
  /-- The first turn of the pump, up to its first suspension in `subscribe`. -/
  enter : State → State
  /-- `subscribe` yields the next event. -/
  take : State → Option (E × State)
  /-- The call of `publish` that an action begins, with its topic and event. -/
  starts : Action → Option (Nat × String × E)

/-- A task in the queue of the event loop. -/
inductive Turn where
  | stream
  | pump
  | other

/-- Where the generator stands. -/
inductive Stage where
  | created
  /-- In `checkpoint`. -/
  | checkpoint
  /-- At a `yield`. -/
  | suspended
  /-- In `receive`. -/
  | receiving
  | finished
  deriving DecidableEq

inductive PumpStage where
  | idle
  | running
  | ended
  deriving DecidableEq

inductive Frame (E : Type) where
  | event (e : E)
  | heartbeat

def Frame.event? {E : Type} : Frame E → Option E
  | .event e => some e
  | .heartbeat => none

structure LiveStream {E : Type} (B : BrokerSide E) (H : ObjectStream E) where
  broker : B.State
  turns : List Turn := []
  stage : Stage := .created
  pump : PumpStage := .idle
  /-- The event that the pump is sending. -/
  hand : Option E := none
  buffer : H.State := H.new
  /-- What the consumer was given, oldest first. -/
  frames : List (Frame E) := []
  /-- The calls of `publish` that began after the ready frame was handed over. -/
  late : List (Nat × String × E) := []

inductive StreamAction (A : Type) where
  /-- Another task becomes ready to run. -/
  | arrive
  /-- The consumer asks for the first frame. -/
  | start
  /-- The event loop runs the task at the head of its queue. -/
  | turn
  /-- The consumer asks for another frame; the age of the connection may be over. -/
  | next (expired : Bool)
  | take
  | send
  | receive
  /-- The deadline of `receive` passes. -/
  | timeout (expired : Bool)
  | endOfStream
  /-- `subscribe` ends. -/
  | leave
  /-- The consumer or an error of the pump ends the generator. -/
  | stop
  | broker (a : A)

namespace LiveStream

variable {E : Type} {B : BrokerSide E} {H : ObjectStream E}

def step (ready : E) (t : LiveStream B H) : StreamAction B.Action → Option (LiveStream B H)
  | .arrive => some { t with turns := t.turns ++ [.other] }
  | .start =>
    if t.stage = .created then
      -- the pump's task is started before the stream comes to its checkpoint
      some { t with turns := t.turns ++ [.pump, .stream], stage := .checkpoint }
    else none
  | .turn =>
    match t.turns with
    | [] => none
    | .other :: turns => some { t with turns := turns }
    | .pump :: turns =>
      -- the pump enters `subscribe` on its first turn
      if t.pump = .idle then
        some { t with turns := turns, pump := .running, broker := B.enter t.broker }
      else some { t with turns := turns }
    | .stream :: turns =>
      -- the checkpoint is over: `ready` is yielded
      if t.stage = .checkpoint then
        some { t with turns := turns, stage := .suspended, frames := t.frames ++ [.event ready] }
      else some { t with turns := turns }
  | .next expired =>
    if t.stage = .suspended then
      -- the age of the connection is looked at before each frame
      some { t with stage := if expired then .finished else .receiving }
    else none
  | .take =>
    if t.pump = .running ∧ t.hand.isNone then
      -- the pump holds one event at a time
      (B.take t.broker).map fun r => { t with broker := r.2, hand := some r.1 }
    else none
  | .send =>
    t.hand.bind fun e => (H.send t.buffer e).map fun buffer =>
      { t with buffer := buffer, hand := none }
  | .receive =>
    if t.stage = .receiving then
      (H.receive t.buffer).map fun r =>
        { t with buffer := r.2, stage := .suspended, frames := t.frames ++ [.event r.1] }
    else none
  | .timeout expired =>
    -- the deadline cuts the waiting short: the end of the connection or a heartbeat
    if t.stage = .receiving then
      if expired then some { t with buffer := H.cancel t.buffer, stage := .finished }
      else some { t with
        buffer := H.cancel t.buffer, stage := .suspended, frames := t.frames ++ [.heartbeat] }
    else none
  | .endOfStream =>
    if t.stage = .receiving ∧ t.pump = .ended ∧ (H.receive t.buffer).isNone then
      some { t with stage := .finished }
    else none
  | .leave =>
    if t.pump = .running ∧ t.hand.isNone then some { t with pump := .ended } else none
  | .stop => some { t with stage := .finished }
  | .broker a =>
    (B.step t.broker a).map fun b =>
      -- what is published before the first frame is not late
      { t with broker := b, late := t.late ++ if t.frames.isEmpty then [] else (B.starts a).toList }

/-- The events handed to the consumer after the ready frame. -/
def emitted (t : LiveStream B H) : List E := t.frames.tail.filterMap Frame.event?

/-- The events between the broker and the consumer. -/
def flow (t : LiveStream B H) : List E := H.held t.buffer ++ t.hand.toList

/-! ### The ready frame comes first, and after the first turn of the pump -/

/-- What holds between the queue of the event loop and the two tasks. -/
structure Ordered (ready : E) (t : LiveStream B H) : Prop where
  created : t.stage = .created → .stream ∉ t.turns
  silent : t.stage = .created ∨ t.stage = .checkpoint → t.frames = []
  ahead : ∀ front back, t.turns = front ++ .stream :: back → t.pump ≠ .idle ∨ .pump ∈ front
  entered : t.frames ≠ [] → t.pump ≠ .idle
  spoken : t.stage = .suspended ∨ t.stage = .receiving → t.frames ≠ []
  first : t.frames = [] ∨ ∃ rest, t.frames = .event ready :: rest

section Ordered

variable {ready : E} {t t' : LiveStream B H}

theorem ordered_new (b : B.State) : Ordered ready ({ broker := b } : LiveStream B H) where
  created _ := List.not_mem_nil
  silent _ := rfl
  ahead front back h := by simp at h
  entered h := absurd rfl h
  spoken h := by simp at h
  first := .inl rfl

/-- A step that leaves the queue and the frames as they are and does not bring the pump back. -/
theorem Ordered.same (h : Ordered ready t) (hturns : t'.turns = t.turns)
    (hstage : t'.stage = t.stage) (hframes : t'.frames = t.frames)
    (hpump : t.pump ≠ .idle → t'.pump ≠ .idle) : Ordered ready t' where
  created := by rw [hstage, hturns]; exact h.created
  silent := by rw [hstage, hframes]; exact h.silent
  ahead := by rw [hturns]; exact fun front back hsplit => (h.ahead front back hsplit).imp_left hpump
  entered := by rw [hframes]; exact fun hne => hpump (h.entered hne)
  spoken := by rw [hstage, hframes]; exact h.spoken
  first := by rw [hframes]; exact h.first

/-- A step of the generator behind the ready frame, which may add frames. -/
theorem Ordered.speak (h : Ordered ready t) (hne : t.frames ≠ []) {stage : Stage}
    (buffer : H.State) (more : List (Frame E)) (hstage : stage ≠ .created ∧ stage ≠ .checkpoint) :
    Ordered ready { t with stage := stage, buffer := buffer, frames := t.frames ++ more } where
  created hcreated := absurd hcreated hstage.1
  silent hearly := absurd hearly (by simp [hstage])
  ahead := h.ahead
  entered _ := h.entered hne
  spoken _ := by simp [hne]
  first := by
    obtain ⟨rest, hrest⟩ := h.first.resolve_left hne
    exact .inr ⟨rest ++ more, by simp [hrest]⟩

/-- The generator ends. -/
theorem Ordered.finish (h : Ordered ready t) :
    Ordered ready { t with stage := .finished } where
  created hcreated := by cases hcreated
  silent hearly := by simp at hearly
  ahead := h.ahead
  entered := h.entered
  spoken hspoken := by simp at hspoken
  first := h.first

/-- The head of the queue has had its turn. -/
theorem Ordered.pass (h : Ordered ready t) {turn : Turn} {turns : List Turn}
    (hturns : t.turns = turn :: turns) (hnot : turn ≠ .pump ∨ t.pump ≠ .idle) :
    Ordered ready { t with turns := turns } where
  created hcreated hmem := h.created hcreated (by rw [hturns]; exact List.mem_cons_of_mem _ hmem)
  silent := h.silent
  ahead := by
    intro front back hsplit
    have hsplit' : turns = front ++ .stream :: back := hsplit
    have hwhole : t.turns = (turn :: front) ++ .stream :: back := by
      rw [hturns, hsplit', List.cons_append]
    rcases h.ahead (turn :: front) back hwhole with hpump | hmem
    · exact .inl hpump
    · rcases List.mem_cons.mp hmem with hturn | hmem
      · exact .inl (hnot.resolve_left (by simp [← hturn]))
      · exact .inr hmem
  entered := h.entered
  spoken := h.spoken
  first := h.first

theorem ordered_arrive (h : Ordered ready t) :
    Ordered ready { t with turns := t.turns ++ [.other] } where
  created hcreated hmem := by
    rcases List.mem_append.mp hmem with hmem | hmem
    · exact h.created hcreated hmem
    · cases List.mem_singleton.mp hmem
  silent := h.silent
  ahead := by
    intro front back hsplit
    have hsplit' : t.turns ++ [.other] = front ++ .stream :: back := hsplit
    rcases List.eq_nil_or_concat' back with rfl | ⟨back, last, rfl⟩
    · have hlast := (List.append_inj' hsplit' rfl).2
      cases List.singleton_inj.mp hlast
    · have hwhole : t.turns ++ [.other] = (front ++ .stream :: back) ++ [last] := by
        simp [hsplit']
      exact h.ahead front back (List.append_inj' hwhole rfl).1
  entered := h.entered
  spoken := h.spoken
  first := h.first

/-- The pump is put into the queue directly before the generator itself. -/
theorem ordered_start (h : Ordered ready t) (hcreated : t.stage = .created) :
    Ordered ready { t with turns := t.turns ++ [.pump, .stream], stage := .checkpoint } where
  created hstage := by cases hstage
  silent _ := h.silent (.inl hcreated)
  ahead := by
    intro front back hsplit
    have hsplit' : t.turns ++ [.pump, .stream] = front ++ .stream :: back := hsplit
    have hno := h.created hcreated
    -- the stream's own turn lies behind what was in the queue, and so behind the pump's
    rcases List.append_eq_append_iff.mp hsplit' with ⟨more, hfront, hmore⟩ | ⟨more, hturns, hmore⟩
    · cases more with
      | nil => cases (List.cons.inj hmore).1
      | cons turn more =>
        obtain ⟨hturn, -⟩ := List.cons.inj hmore
        exact .inr (by rw [hfront, ← hturn]; simp)
    · cases more with
      | nil => cases (List.cons.inj hmore).1
      | cons turn more =>
        obtain ⟨hturn, -⟩ := List.cons.inj hmore
        exact absurd (by rw [hturns, ← hturn]; simp) hno
  entered := h.entered
  spoken hspoken := by simp at hspoken
  first := h.first

theorem ordered_turn (h : Ordered ready t) (hstep : step ready t .turn = some t') :
    Ordered ready t' := by
  -- Only the stream's own turn writes a frame, and only at its checkpoint.
  simp only [step] at hstep
  split at hstep
  · cases hstep
  · next turns hturns =>
    cases hstep
    exact h.pass hturns (.inl (by simp))
  · next turns hturns =>
    split at hstep
    · cases hstep
      have hrunning : Ordered ready { t with pump := .running, broker := B.enter t.broker } :=
        h.same rfl rfl rfl fun _ => by simp
      exact hrunning.pass hturns (.inr (by simp))
    · next hidle =>
      cases hstep
      exact h.pass hturns (.inr hidle)
  · next turns hturns =>
    -- the pump was ahead of the stream in the queue, so it has entered by now
    have hpump : t.pump ≠ .idle := (h.ahead [] turns hturns).resolve_right (by simp)
    have hpassed := h.pass hturns (.inl (by simp))
    split at hstep
    · next hstage =>
      cases hstep
      -- nothing was written before, so `ready` is the first frame
      have hnone := h.silent (.inr hstage)
      constructor
      case created => exact fun hcreated => by cases hcreated
      case silent => exact fun hearly => by simp at hearly
      case ahead => exact hpassed.ahead
      case entered => exact fun _ => hpump
      case spoken => exact fun _ => by simp
      case first => exact .inr ⟨[], by simp [hnone]⟩
    · cases hstep
      exact hpassed

theorem ordered_step (h : Ordered ready t) {a : StreamAction B.Action}
    (hstep : step ready t a = some t') : Ordered ready t' := by
  -- One case for each action; those that write no frame change nothing that the order speaks of.
  cases a with
  | arrive =>
    cases hstep
    exact ordered_arrive h
  | start =>
    simp only [step] at hstep
    split at hstep
    · next hcreated =>
      cases hstep
      exact ordered_start h hcreated
    · cases hstep
  | turn => exact ordered_turn h hstep
  | next expired =>
    simp only [step] at hstep
    split at hstep
    · next hstage =>
      cases hstep
      cases expired with
      | true => exact h.finish
      -- asking for a frame writes none, and the stage moves on
      | false => simpa using h.speak (h.spoken (.inl hstage)) t.buffer [] (by simp)
    · cases hstep
  | take =>
    simp only [step] at hstep
    split at hstep
    · obtain ⟨r, -, rfl⟩ := Option.map_eq_some_iff.mp hstep
      exact h.same rfl rfl rfl id
    · cases hstep
  | send =>
    obtain ⟨e, -, hsent⟩ := Option.bind_eq_some_iff.mp hstep
    obtain ⟨buffer, -, rfl⟩ := Option.map_eq_some_iff.mp hsent
    exact h.same rfl rfl rfl id
  | receive =>
    simp only [step] at hstep
    split at hstep
    · next hstage =>
      obtain ⟨r, -, rfl⟩ := Option.map_eq_some_iff.mp hstep
      exact h.speak (h.spoken (.inr hstage)) _ _ (by simp)
    · cases hstep
  | timeout expired =>
    simp only [step] at hstep
    split at hstep
    · next hstage =>
      have hspoken := h.spoken (.inr hstage)
      split at hstep
      · cases hstep
        simpa using h.speak hspoken (H.cancel t.buffer) [] (by simp)
      · cases hstep
        exact h.speak hspoken _ _ (by simp)
    · cases hstep
  | endOfStream =>
    simp only [step] at hstep
    split at hstep
    · cases hstep
      exact h.finish
    · cases hstep
  | leave =>
    simp only [step] at hstep
    split at hstep
    · cases hstep
      exact h.same rfl rfl rfl fun _ => by simp
    · cases hstep
  | stop =>
    cases hstep
    exact h.finish
  | broker a =>
    obtain ⟨b, -, rfl⟩ := Option.map_eq_some_iff.mp hstep
    exact h.same rfl rfl rfl id

end Ordered

/-! ### Nothing is dropped or repeated on the way -/

/-- What the records of a broker say of one subscription. -/
structure Views (B : BrokerSide E) where
  /-- The events that `subscribe` has yielded. -/
  given : B.State → List E
  /-- The events that it will yield next. -/
  queued : B.State → List E
  /-- The calls of `publish` in the order in which the subscription took their events. -/
  offered : B.State → List Nat
  eventOf : B.State → Nat → Option E
  /-- The call has not reached the subscription, or has failed. -/
  underWay : B.State → Nat → Prop
  /-- The subscription has not been closed, and its queue has not overflowed. -/
  isOpen : B.State → Prop

/-- What a broker keeps for the subscription to `topics`.  `allowed b call a` is asked of every
action `a` after the call. -/
structure Keeps (V : Views B) (topics : List String) (allowed : B.State → Nat → B.Action → Prop) where
  -- the broker's invariant, what has entered, and what the stream is owed of a publication
  Inv : B.State → Prop
  Entered : B.State → Prop
  Followed : Nat × String × E → B.State → Prop
  inv_enter : ∀ {b}, Inv b → Inv (B.enter b)
  inv_step : ∀ {b b' a}, Inv b → B.step b a = some b' → Inv b'
  inv_take : ∀ {b b' e}, Inv b → B.take b = some (e, b') → Inv b'
  -- only taking an event gives one away
  given_enter : ∀ b, V.given (B.enter b) = V.given b
  given_step : ∀ {b b' a}, Inv b → B.step b a = some b' → V.given b' = V.given b
  given_take : ∀ {b b' e}, Inv b → B.take b = some (e, b') → V.given b' = V.given b ++ [e]
  -- given and queued events are the offered ones, in order
  whole : ∀ {b}, Inv b → V.isOpen b →
    (V.given b ++ V.queued b).map some = (V.offered b).map (V.eventOf b)
  nodup : ∀ {b}, Inv b → (V.offered b).Nodup
  offered_enter : ∀ b, V.offered b <+: V.offered (B.enter b)
  offered_step : ∀ {b b' a}, Inv b → B.step b a = some b' → V.offered b <+: V.offered b'
  offered_take : ∀ {b b' e}, Inv b → B.take b = some (e, b') → V.offered b <+: V.offered b'
  take_of_queued : ∀ {b e rest}, Inv b → V.isOpen b → V.queued b = e :: rest →
    ∃ b', B.take b = some (e, b') ∧ V.queued b' = rest ∧ V.isOpen b'
  -- entering is not taken back
  entered_enter : ∀ {b}, Inv b → Entered (B.enter b)
  entered_step : ∀ {b b' a}, Inv b → Entered b → B.step b a = some b' → Entered b'
  entered_take : ∀ {b b' e}, Inv b → Entered b → B.take b = some (e, b') → Entered b'
  followed_start : ∀ {b b' a c}, Inv b → Entered b → B.step b a = some b' → B.starts a = some c →
    Followed c b'
  followed_enter : ∀ {b c}, Inv b → Followed c b → Followed c (B.enter b)
  followed_step : ∀ {b b' a c}, Inv b → Followed c b → allowed b c.1 a → B.step b a = some b' →
    Followed c b'
  followed_take : ∀ {b b' e c}, Inv b → Followed c b → B.take b = some (e, b') → Followed c b'
  -- a followed publication is still on its way or has been offered
  arrives : ∀ {b call topic event}, Inv b → Followed (call, topic, event) b → V.isOpen b →
    topic ∈ topics → V.underWay b call ∨ call ∈ V.offered b ∧ V.eventOf b call = some event

/-- The condition on a step of the stream: every call that began after the ready frame allows it. -/
def Admits (allowed : B.State → Nat → B.Action → Prop) (t : LiveStream B H) :
    StreamAction B.Action → Prop
  | .broker a => ∀ c ∈ t.late, allowed t.broker c.1 a
  | _ => True

/-- The steps of the two tasks alone, without the passing of a deadline. -/
def Unhurried (_ : LiveStream B H) : StreamAction B.Action → Prop
  | .take => True
  | .send => True
  | .receive => True
  | .next expired => expired = false
  | _ => False

/-- No gap after the ready frame. -/
structure NoGap (V : Views B) (topics : List String) (ready : E)
    (ok : LiveStream B H → StreamAction B.Action → Prop) (t : LiveStream B H) : Prop where
  /-- The ready frame comes first. -/
  first : t.frames = [] ∨ ∃ rest, t.frames = .event ready :: rest
  /-- What was emitted, what is on its way and what is queued are what the subscription took. -/
  whole : V.isOpen t.broker → (t.emitted ++ (t.flow ++ V.queued t.broker)).map some =
    (V.offered t.broker).map (V.eventOf t.broker)
  /-- No call is taken twice. -/
  nodup : (V.offered t.broker).Nodup
  /-- Calls that do not overlap are taken in their order. -/
  order : ∀ t', Run (step ready) ok t t' → V.offered t.broker <+: V.offered t'.broker
  /-- A call that began after the ready frame is taken once it is no longer under way. -/
  late : V.isOpen t.broker → ∀ call topic event, (call, topic, event) ∈ t.late → topic ∈ topics →
    V.underWay t.broker call ∨
      call ∈ V.offered t.broker ∧ V.eventOf t.broker call = some event
  /-- The two tasks can always emit what is left. -/
  drains : V.isOpen t.broker → t.frames ≠ [] → t.stage ≠ .finished → t.pump = .running →
    ∃ t', Run (step ready) Unhurried t t' ∧ t'.flow = [] ∧ V.queued t'.broker = [] ∧
      t'.emitted = t.emitted ++ (t.flow ++ V.queued t.broker)

section NoGap

variable {V : Views B} {topics : List String} {allowed : B.State → Nat → B.Action → Prop}
  {ready : E} {t t' : LiveStream B H}

/-- What every step of the stream keeps. -/
structure Kept (K : Keeps V topics allowed) (ready : E) (t : LiveStream B H) : Prop
    extends Ordered ready t where
  inv : K.Inv t.broker
  conserved : t.emitted ++ t.flow = V.given t.broker
  enrolled : t.pump ≠ .idle → K.Entered t.broker
  followed : ∀ c ∈ t.late, K.Followed c t.broker

theorem emitted_append {frames more : List (Frame E)} (h : frames ≠ []) :
    (frames ++ more).tail.filterMap Frame.event? =
      frames.tail.filterMap Frame.event? ++ more.filterMap Frame.event? := by
  obtain ⟨frame, frames, rfl⟩ := List.exists_cons_of_ne_nil h
  simp

variable {K : Keeps V topics allowed}

/-- A step of the two tasks that leaves the broker and the late calls as they are. -/
theorem Kept.within (h : Kept K ready t) (hordered : Ordered ready t') (hbroker : t'.broker = t.broker)
    (hlate : t'.late = t.late) (hpump : t.pump = .idle → t'.pump = .idle)
    (hflow : t'.emitted ++ t'.flow = t.emitted ++ t.flow) : Kept K ready t' where
  toOrdered := hordered
  inv := by rw [hbroker]; exact h.inv
  conserved := by rw [hbroker, hflow, h.conserved]
  enrolled hne := by rw [hbroker]; exact h.enrolled fun hidle => hne (hpump hidle)
  followed := by rw [hbroker, hlate]; exact h.followed

theorem Kept.turn (h : Kept K ready t) (hstep : step ready t .turn = some t') :
    Kept K ready t' := by
  have hordered := ordered_turn h.toOrdered hstep
  simp only [step] at hstep
  split at hstep
  · cases hstep
  · cases hstep
    exact h.within hordered rfl rfl id rfl
  · split at hstep
    · cases hstep
      constructor
      case toOrdered => exact hordered
      case inv => exact K.inv_enter h.inv
      case conserved => exact h.conserved.trans (K.given_enter _).symm
      case enrolled => exact fun _ => K.entered_enter h.inv
      case followed => exact fun c hc => K.followed_enter h.inv (h.followed c hc)
    · cases hstep
      exact h.within hordered rfl rfl id rfl
  · split at hstep
    · next hstage =>
      cases hstep
      have hnone := h.silent (.inr hstage)
      exact h.within hordered rfl rfl id (by simp [emitted, flow, hnone])
    · cases hstep
      exact h.within hordered rfl rfl id rfl

theorem Kept.take (h : Kept K ready t) (hstep : step ready t .take = some t') :
    Kept K ready t' := by
  have hordered := ordered_step h.toOrdered hstep
  simp only [step] at hstep
  split at hstep
  · next hguard =>
    obtain ⟨⟨e, b⟩, htake, rfl⟩ := Option.map_eq_some_iff.mp hstep
    have hhand : t.hand = none := Option.isNone_iff_eq_none.mp hguard.2
    constructor
    case toOrdered => exact hordered
    case inv => exact K.inv_take h.inv htake
    case conserved =>
      rw [K.given_take h.inv htake, ← h.conserved]
      simp [emitted, flow, hhand]
    case enrolled => exact fun hne => K.entered_take h.inv (h.enrolled hne) htake
    case followed => exact fun c hc => K.followed_take h.inv (h.followed c hc) htake
  · cases hstep

theorem Kept.send (h : Kept K ready t) (hstep : step ready t .send = some t') :
    Kept K ready t' := by
  have hordered := ordered_step h.toOrdered hstep
  obtain ⟨e, hhand, hsent⟩ := Option.bind_eq_some_iff.mp hstep
  obtain ⟨buffer, hsend, rfl⟩ := Option.map_eq_some_iff.mp hsent
  exact h.within hordered rfl rfl id (by simp [emitted, flow, hhand, H.held_send hsend])

theorem Kept.receive (h : Kept K ready t) (hstep : step ready t .receive = some t') :
    Kept K ready t' := by
  have hordered := ordered_step h.toOrdered hstep
  simp only [step] at hstep
  split at hstep
  · next hstage =>
    obtain ⟨⟨e, buffer⟩, hreceive, rfl⟩ := Option.map_eq_some_iff.mp hstep
    have hspoken := h.spoken (.inr hstage)
    refine h.within hordered rfl rfl id ?_
    simp [emitted, flow, emitted_append hspoken, Frame.event?, H.held_receive hreceive]
  · cases hstep

theorem Kept.timeout (h : Kept K ready t) {expired : Bool}
    (hstep : step ready t (.timeout expired) = some t') : Kept K ready t' := by
  have hordered := ordered_step h.toOrdered hstep
  simp only [step] at hstep
  split at hstep
  · next hstage =>
    have hspoken := h.spoken (.inr hstage)
    split at hstep
    · cases hstep
      exact h.within hordered rfl rfl id (by simp [emitted, flow, H.held_cancel])
    · cases hstep
      refine h.within hordered rfl rfl id ?_
      simp [emitted, flow, emitted_append hspoken, Frame.event?, H.held_cancel]
  · cases hstep

theorem Kept.broker (h : Kept K ready t) {a : B.Action}
    (hok : ∀ c ∈ t.late, allowed t.broker c.1 a)
    (hstep : step ready t (.broker a) = some t') : Kept K ready t' := by
  have hordered := ordered_step h.toOrdered hstep
  obtain ⟨b, hb, rfl⟩ := Option.map_eq_some_iff.mp hstep
  constructor
  case toOrdered => exact hordered
  case inv => exact K.inv_step h.inv hb
  case conserved => exact h.conserved.trans (K.given_step h.inv hb).symm
  case enrolled => exact fun hne => K.entered_step h.inv (h.enrolled hne) hb
  case followed =>
    intro c hc
    rcases List.mem_append.mp hc with hc | hc
    · exact K.followed_step h.inv (h.followed c hc) (hok c hc) hb
    · cases hframes : t.frames with
      | nil => simp [hframes] at hc
      | cons frame frames =>
        have hstarts : B.starts a = some c := by simpa [hframes] using hc
        have hrunning : t.pump ≠ .idle := h.entered (by simp [hframes])
        exact K.followed_start h.inv (h.enrolled hrunning) hb hstarts

theorem Kept.next (h : Kept K ready t) {a : StreamAction B.Action} (hok : Admits allowed t a)
    (hstep : step ready t a = some t') : Kept K ready t' := by
  have hordered := ordered_step h.toOrdered hstep
  cases a with
  | turn => exact h.turn hstep
  | take => exact h.take hstep
  | send => exact h.send hstep
  | receive => exact h.receive hstep
  | timeout expired => exact h.timeout hstep
  | broker a => exact h.broker hok hstep
  | arrive | stop =>
    cases hstep
    exact h.within hordered rfl rfl id rfl
  | start | next expired | endOfStream =>
    simp only [step] at hstep
    split at hstep
    · cases hstep
      exact h.within hordered rfl rfl id rfl
    · cases hstep
  | leave =>
    simp only [step] at hstep
    split at hstep
    · next hguard =>
      cases hstep
      exact h.within hordered rfl rfl (fun hidle => by simp [hidle] at hguard) rfl
    · cases hstep

theorem kept_run {b : B.State} (hb : K.Inv b) (hempty : V.given b = [])
    (h : Run (step ready) (Admits allowed) ({ broker := b } : LiveStream B H) t) :
    Kept K ready t := by
  apply h.invariant (I := Kept K ready) (fun _ _ _ hkept hok hstep => hkept.next hok hstep)
  constructor
  case toOrdered => exact ordered_new b
  case inv => exact hb
  case conserved => simp [emitted, flow, H.held_new, hempty]
  case enrolled => exact fun hne => absurd rfl hne
  case followed => exact fun c hc => by cases hc

/-- What a step can do to the broker. -/
theorem broker_cases {a : StreamAction B.Action} (hstep : step ready t a = some t') :
    t'.broker = t.broker ∨ t'.broker = B.enter t.broker ∨
      (∃ e, B.take t.broker = some (e, t'.broker)) ∨ ∃ a, B.step t.broker a = some t'.broker := by
  -- Only a turn of the pump, a take and the broker's own action reach the broker.
  cases a with
  | turn =>
    simp only [step] at hstep
    split at hstep
    · cases hstep
    · cases hstep
      exact .inl rfl
    -- the pump's first turn enters
    · split at hstep
      · cases hstep
        exact .inr (.inl rfl)
      · cases hstep
        exact .inl rfl
    · split at hstep
      · cases hstep
        exact .inl rfl
      · cases hstep
        exact .inl rfl
  | take =>
    simp only [step] at hstep
    split at hstep
    · obtain ⟨⟨e, b⟩, htake, rfl⟩ := Option.map_eq_some_iff.mp hstep
      exact .inr (.inr (.inl ⟨e, htake⟩))
    · cases hstep
  | broker a =>
    obtain ⟨b, hb, rfl⟩ := Option.map_eq_some_iff.mp hstep
    exact .inr (.inr (.inr ⟨a, hb⟩))
  | send =>
    obtain ⟨e, -, hsent⟩ := Option.bind_eq_some_iff.mp hstep
    obtain ⟨buffer, -, rfl⟩ := Option.map_eq_some_iff.mp hsent
    exact .inl rfl
  | receive =>
    simp only [step] at hstep
    split at hstep
    · obtain ⟨r, -, rfl⟩ := Option.map_eq_some_iff.mp hstep
      exact .inl rfl
    · cases hstep
  | timeout expired =>
    simp only [step] at hstep
    split at hstep
    · split at hstep
      · cases hstep
        exact .inl rfl
      · cases hstep
        exact .inl rfl
    · cases hstep
  | arrive | stop =>
    cases hstep
    exact .inl rfl
  | start | next expired | endOfStream | leave =>
    simp only [step] at hstep
    split at hstep
    · cases hstep
      exact .inl rfl
    · cases hstep

/-- The records of a subscription only grow at their end. -/
theorem Kept.offered_next (h : Kept K ready t) {a : StreamAction B.Action}
    (hstep : step ready t a = some t') : V.offered t.broker <+: V.offered t'.broker := by
  rcases broker_cases hstep with hsame | henter | ⟨e, htake⟩ | ⟨a, hb⟩
  · rw [hsame]
  · rw [henter]
    exact K.offered_enter _
  · exact K.offered_take h.inv htake
  · exact K.offered_step h.inv hb

theorem Kept.offered_run (h : Kept K ready t) (hrun : Run (step ready) (Admits allowed) t t') :
    V.offered t.broker <+: V.offered t'.broker := by
  have hboth := hrun.invariant
    (I := fun t' => Kept K ready t' ∧ V.offered t.broker <+: V.offered t'.broker)
    (fun _ _ _ ⟨hkept, hgrown⟩ hok hstep =>
      ⟨hkept.next hok hstep, hgrown.trans (hkept.offered_next hstep)⟩)
    ⟨h, List.prefix_rfl⟩
  exact hboth.2

/-! ### What is left can be emitted -/

/-- A stream whose two tasks are at work, before the `rest` of its events. -/
structure Draining (K : Keeps V topics allowed) (t : LiveStream B H) (out rest : List E) : Prop where
  inv : K.Inv t.broker
  isOpen : V.isOpen t.broker
  spoken : t.frames ≠ []
  stage : t.stage = .suspended ∨ t.stage = .receiving
  pump : t.pump = .running
  emitted : t.emitted = out
  left : t.flow ++ V.queued t.broker = rest

variable (ready) in
/-- The oldest event is in the stream. -/
theorem Draining.out_of_held {e : E} {out rest held : List E} (h : Draining K t out (e :: rest))
    (hheld : H.held t.buffer = e :: held) :
    ∃ t', Run (step ready) Unhurried t t' ∧ Draining K t' (out ++ [e]) rest := by
  -- the generator is brought to its `receive`, and that takes the event
  have hwait : ∃ u : LiveStream B H, Run (step ready) Unhurried t u ∧
      u = { t with stage := .receiving } := by
    rcases h.stage with hstage | hstage
    · refine ⟨_, Run.refl.tail (a := .next false) rfl ?_, rfl⟩
      simp [step, hstage]
    · exact ⟨t, .refl, by rw [← hstage]⟩
  obtain ⟨u, hu, rfl⟩ := hwait
  cases hreceive : H.receive t.buffer with
  | none =>
    rw [H.receive_none hreceive] at hheld
    cases hheld
  | some r =>
    obtain ⟨e', buffer⟩ := r
    have hsplit := H.held_receive hreceive
    rw [hheld] at hsplit
    obtain ⟨rfl, rfl⟩ := List.cons.inj hsplit
    refine ⟨_, hu.tail (a := .receive) trivial (by simp [step, hreceive]; rfl), ?_⟩
    constructor
    case inv => exact h.inv
    case isOpen => exact h.isOpen
    case spoken => simp
    case stage => exact .inl rfl
    case pump => exact h.pump
    case emitted =>
      rw [← h.emitted]
      simp [LiveStream.emitted, emitted_append h.spoken, Frame.event?]
    case left =>
      have hleft := h.left
      simp only [flow, hheld, List.cons_append, List.cons.injEq, true_and] at hleft
      exact hleft

variable (ready) in
/-- The oldest event is in the hand of the pump. -/
theorem Draining.out_of_hand {e : E} {out rest : List E} (h : Draining K t out (e :: rest))
    (hheld : H.held t.buffer = []) (hhand : t.hand = some e) :
    ∃ t', Run (step ready) Unhurried t t' ∧ Draining K t' (out ++ [e]) rest := by
  obtain ⟨buffer, hsend⟩ := Option.isSome_iff_exists.mp (H.send_of_empty e hheld)
  have hbuffer := H.held_send hsend
  rw [hheld, List.nil_append] at hbuffer
  have hsent : step ready t .send = some { t with buffer := buffer, hand := none } := by
    simp [step, hhand, hsend]
  have hnext : Draining K { t with buffer := buffer, hand := none } out (e :: rest) := by
    constructor
    case inv => exact h.inv
    case isOpen => exact h.isOpen
    case spoken => exact h.spoken
    case stage => exact h.stage
    case pump => exact h.pump
    case emitted => exact h.emitted
    case left =>
      rw [← h.left]
      simp [flow, hheld, hhand, hbuffer]
  obtain ⟨t', hrun, ht'⟩ := hnext.out_of_held ready hbuffer
  exact ⟨t', Run.head (a := .send) trivial hsent hrun, ht'⟩

variable (ready) in
theorem Draining.out_of_left {e : E} {out rest : List E} (h : Draining K t out (e :: rest)) :
    ∃ t', Run (step ready) Unhurried t t' ∧ Draining K t' (out ++ [e]) rest := by
  have hleft := h.left
  -- the next event is in the buffer, in the pump's hand or still queued, in that order
  cases hheld : H.held t.buffer with
  | cons first held =>
    simp only [flow, hheld, List.cons_append, List.cons.injEq] at hleft
    exact h.out_of_held ready (hleft.1 ▸ hheld)
  | nil =>
    cases hhand : t.hand with
    | some first =>
      simp only [flow, hheld, hhand, List.nil_append, Option.toList_some, List.cons_append,
        List.cons.injEq] at hleft
      exact h.out_of_hand ready hheld (hleft.1 ▸ hhand)
    -- nothing is on its way: the pump takes it from the queue first
    | none =>
      simp only [flow, hheld, hhand, List.nil_append, Option.toList_none] at hleft
      obtain ⟨b, htake, hrest, hopen⟩ := K.take_of_queued h.inv h.isOpen hleft
      have htaken : step ready t .take = some { t with broker := b, hand := some e } := by
        simp [step, h.pump, hhand, htake]
      have hnext : Draining K { t with broker := b, hand := some e } out (e :: rest) := by
        constructor
        case inv => exact K.inv_take h.inv htake
        case isOpen => exact hopen
        case spoken => exact h.spoken
        case stage => exact h.stage
        case pump => exact h.pump
        case emitted => exact h.emitted
        case left => simp [flow, hheld, hrest]
      obtain ⟨t', hrun, ht'⟩ := hnext.out_of_hand ready hheld rfl
      exact ⟨t', Run.head (a := .take) trivial htaken hrun, ht'⟩

variable (ready) in
theorem Draining.all_out {out rest : List E} (h : Draining K t out rest) :
    ∃ t', Run (step ready) Unhurried t t' ∧ Draining K t' (out ++ rest) [] := by
  induction rest generalizing t out with
  | nil => exact ⟨t, .refl, by rw [List.append_nil]; exact h⟩
  | cons e rest ih =>
    obtain ⟨u, hu, hnext⟩ := h.out_of_left ready
    obtain ⟨t', hrun, ht'⟩ := ih hnext
    refine ⟨t', hu.trans hrun, ?_⟩
    rw [List.append_cons]
    exact ht'

/-- A broker that keeps its account leaves no gap. -/
theorem noGap_run (K : Keeps V topics allowed) {b : B.State} (hb : K.Inv b) (hempty : V.given b = [])
    (h : Run (step ready) (Admits allowed) ({ broker := b } : LiveStream B H) t) :
    NoGap V topics ready (Admits allowed) t := by
  -- All clauses are read off one invariant of the run.
  have hkept := kept_run (K := K) hb hempty h
  constructor
  case first => exact hkept.first
  case whole =>
    intro hopen
    rw [← List.append_assoc, hkept.conserved]
    exact K.whole hkept.inv hopen
  case nodup => exact K.nodup hkept.inv
  case order => exact fun t' hrun => hkept.offered_run hrun
  case late =>
    intro hopen call topic event hmem htopic
    exact K.arrives hkept.inv (hkept.followed _ hmem) hopen htopic
  case drains =>
    intro hopen hspoken hstage hpump
    -- what is left can be drained: the stream has spoken and is not finished
    have hdraining : Draining K t t.emitted (t.flow ++ V.queued t.broker) := by
      constructor
      case inv => exact hkept.inv
      case isOpen => exact hopen
      case spoken => exact hspoken
      case stage =>
        -- after the first frame only the two waiting stages are left
        cases hstage' : t.stage with
        | created => exact absurd (hkept.silent (.inl hstage')) hspoken
        | checkpoint => exact absurd (hkept.silent (.inr hstage')) hspoken
        | suspended => exact .inl rfl
        | receiving => exact .inr rfl
        | finished => exact absurd hstage' hstage
      case pump => exact hpump
      case emitted => rfl
      case left => rfl
    obtain ⟨t', hrun, hend⟩ := hdraining.all_out ready
    obtain ⟨hflow, hqueued⟩ := List.append_eq_nil_iff.mp hend.left
    exact ⟨t', hrun, hflow, hqueued, hend.emitted⟩

end NoGap

end LiveStream

end FluxFast.Server

import FluxFast.Server.LiveStream

/-!
# LiveStreamBrokers — the generator over the two brokers

A subscription of the memory broker is registered under the lock of the broker, which is granted in
the order of the requests; the pump asks for it in its first turn, before the ready frame is handed
over.  A subscription of the Redis broker is registered when Redis executes its `SUBSCRIBE`, and
nothing orders that before the ready frame.
-/

namespace FluxFast.Server

open FluxFast.Theory LiveStream
open FluxFast.Core (LiveEvent)

variable {P : Type}

/-! ## The memory broker -/

/-- The broker, with the lock that `publish`, `subscribe` and `close` take. -/
structure MemorySide (P : Type) where
  observed : Observed P
  /-- The task that holds the lock and those that wait for it, by what they do under it. -/
  line : List (BrokerCall P) := []
  /-- The subscription has been refused. -/
  refused : Bool := false

inductive MemoryAction (P : Type) where
  /-- Another task asks for the lock. -/
  | request (call : BrokerCall P)
  /-- The task that holds the lock does its work and releases it. -/
  | grant
  /-- Another task does what takes no lock of the broker. -/
  | act (call : BrokerCall P)

def publishedCall : BrokerCall P → Option Nat
  | .publish call _ _ => some call
  | _ => none

/-- What the tasks apart from the pump of subscription `i` can ask for. -/
def MemorySide.requestable (i : Nat) (b : MemorySide P) : BrokerCall P → Bool
  | .publish call topic event =>
    topic ≠ "" && acceptedEvent event && (b.observed.broker.publications call).isNone &&
      !(b.line.filterMap publishedCall).contains call
  | .subscribe j _ => j ≠ i
  | .discard _ => true
  | .close => true
  | _ => false

def lockless (i : Nat) : BrokerCall P → Bool
  | .deliver _ _ => true
  | .consume j => j ≠ i
  | .finish _ => true
  | .closeSubscriber _ => true
  | _ => false

def enrols (i : Nat) : BrokerCall P → Bool
  | .subscribe j _ => j = i
  | _ => false

namespace MemorySide

/-- The broker or the subscription is closed, or the queue of the subscription has overflowed. -/
def Over (i : Nat) (o : Observed P) : Prop :=
  o.broker.closed = true ∨ o.overflowed i = true ∨
    ∃ s, o.broker.objects i = some s ∧ (s.closed = true ∨ s.left = true)

section Side

variable (blake2b : List UInt8 → String) (i : Nat) (topics : List String)

def step (b : MemorySide P) : MemoryAction P → Option (MemorySide P)
  | .request call =>
    if b.requestable i call then some { b with line := b.line ++ [call] } else none
  | .grant =>
    match b.line with
    | [] => none
    | call :: line =>
      match Observed.step blake2b b.observed call with
      | some o => some { b with observed := o, line := line }
      | none => some { b with line := line, refused := b.refused || enrols i call }
  | .act call =>
    if lockless i call then
      (Observed.step blake2b b.observed call).map fun o => { b with observed := o }
    else none

/-- The events of the queue of the subscription. -/
def queued (b : MemorySide P) : List (LiveEvent P) :=
  match b.observed.broker.objects i with
  | some s => if s.closed || s.left then [] else s.events
  | none => []

def take (b : MemorySide P) : Option (LiveEvent P × MemorySide P) :=
  match queued i b with
  | [] => none
  | event :: _ =>
    (Observed.step blake2b b.observed (.consume i)).map fun o => (event, { b with observed := o })

/-- The subscription `i` to `topics`. -/
def side : BrokerSide (LiveEvent P) where
  State := MemorySide P
  Action := MemoryAction P
  step := step blake2b i
  enter b := { b with line := b.line ++ [.subscribe i topics] }
  take := take blake2b i
  starts
    | .request (.publish call topic event) => some (call, topic, event)
    | _ => none

def views : Views (side blake2b i topics : BrokerSide (LiveEvent P)) where
  given b := b.observed.broker.received i
  queued b := queued i b
  offered b := b.observed.offered i
  eventOf b := b.observed.eventOf
  underWay b call := call ∈ b.line.filterMap publishedCall ∨
    ∃ p, b.observed.broker.publications call = some p ∧ p.targets i = true
  isOpen b := b.refused = false ∧ ¬ Over i b.observed

end Side

/-! ### What the other tasks leave as it is -/

section Frames

variable {blake2b : List UInt8 → String} {i : Nat} {topics : List String} {o o' : Observed P}
  {a : BrokerCall P}

theorem received_step (h : Observed.step blake2b o a = some o') (hnot : a ≠ .consume i) :
    o'.broker.received i = o.broker.received i := by
  cases MemoryLiveBroker.moves_of_callStep i (Observed.step_eq_some h).1 with
  | take => exact absurd rfl hnot
  | other _ hreceived | enter _ _ _ hreceived | offer _ _ _ _ _ _ _ hreceived => exact hreceived
  | leave _ _ _ hreceived | shut _ _ _ hreceived => exact hreceived

theorem unpublished_step {call : Nat} (h : Observed.step blake2b o a = some o')
    (hnone : o.broker.publications call = none) (hnot : publishedCall a ≠ some call) :
    o'.broker.publications call = none := by
  cases MemoryLiveBroker.advances_of_callStep call (Observed.step_eq_some h).1 with
  | other hsame => exact hsame.trans hnone
  | start => exact absurd rfl hnot
  | visit _ _ hpublication =>
    rw [hnone] at hpublication
    cases hpublication

/-- The subscription has been registered. -/
def Enrolled (i : Nat) (topics : List String) (o : Observed P) : Prop :=
  ∃ s, o.broker.objects i = some s ∧ s.topics = topics

theorem enrolled_step (h : Observed.step blake2b o a = some o') (henrolled : Enrolled i topics o) :
    Enrolled i topics o' := by
  obtain ⟨s, hs, htopics⟩ := henrolled
  cases MemoryLiveBroker.moves_of_callStep i (Observed.step_eq_some h).1 with
  | other hobject => exact ⟨s, hobject.trans hs, htopics⟩
  | enter _ hnone =>
    rw [hnone] at hs
    cases hs
  | offer _ publication t _ _ hobject hobject' =>
    obtain rfl : t = s := Option.some.inj (hobject.symm.trans hs)
    exact ⟨_, hobject', (Subscriber.topics_left_offer t publication.event).1.trans htopics⟩
  | take t _ _ hobject _ _ hobject' =>
    obtain rfl : t = s := Option.some.inj (hobject.symm.trans hs)
    exact ⟨_, hobject', htopics⟩
  | leave t hobject hobject' | shut t hobject hobject' =>
    obtain rfl : t = s := Option.some.inj (hobject.symm.trans hs)
    exact ⟨_, hobject', htopics⟩

theorem closed_callStep {b b' : MemoryLiveBroker P}
    (h : MemoryLiveBroker.callStep blake2b b a = some b') (hclosed : b.closed = true) :
    b'.closed = true := by
  -- `publish` and `subscribe` are refused, and no other call opens the broker
  cases a with
  | publish | subscribe => simp [MemoryLiveBroker.callStep, hclosed] at h
  | close =>
    simp only [MemoryLiveBroker.callStep, MemoryLiveBroker.step, hclosed, if_true] at h
    exact Option.some.inj h ▸ hclosed
  | deliver call j =>
    simp only [MemoryLiveBroker.callStep, MemoryLiveBroker.step] at h
    split at h
    · split at h
      · exact Option.some.inj h ▸ hclosed
      · cases h
    · cases h
  | consume j =>
    simp only [MemoryLiveBroker.callStep, MemoryLiveBroker.step] at h
    split at h
    · cases h
    · split at h
      · cases h
      · split at h
        · exact Option.some.inj h ▸ hclosed
        · split at h
          · cases h
          · exact Option.some.inj h ▸ hclosed
  | discard j =>
    simp only [MemoryLiveBroker.callStep, MemoryLiveBroker.step] at h
    split at h
    · cases h
    · exact Option.some.inj h ▸ hclosed
  | finish j | closeSubscriber j =>
    simp only [MemoryLiveBroker.callStep, MemoryLiveBroker.step] at h
    split at h
    · cases h
    · split at h
      · exact Option.some.inj h ▸ hclosed
      · cases h

theorem overflowed_note (b : MemoryLiveBroker P) (h : o.overflowed i = true) :
    (o.note b a).overflowed i = true := by
  unfold Observed.note
  split
  · next call j =>
    split
    · split
      · exact h
      · by_cases hj : i = j
        · subst hj
          simp [h]
        · simpa [Function.update_of_ne hj] using h
    · exact h
  · exact h

theorem over_step (h : Observed.step blake2b o a = some o') (hover : Over i o) : Over i o' := by
  obtain ⟨hcall, hnote⟩ := Observed.step_eq_some h
  rcases hover with hclosed | hoverflowed | ⟨s, hs, hended⟩
  · exact .inl (closed_callStep hcall hclosed)
  · right; left
    rw [hnote]
    exact overflowed_note o'.broker hoverflowed
  · right; right
    cases MemoryLiveBroker.moves_of_callStep i hcall with
    | other hobject => exact ⟨s, hobject.trans hs, hended⟩
    | enter _ hnone =>
      rw [hnone] at hs
      cases hs
    | offer _ publication t _ _ hobject hobject' =>
      obtain rfl : t = s := Option.some.inj (hobject.symm.trans hs)
      refine ⟨_, hobject', ?_⟩
      rcases hended with hclosed | hleft
      · rw [Subscriber.offer_closed hclosed]
        exact .inl hclosed
      · exact .inr ((Subscriber.topics_left_offer t publication.event).2.trans hleft)
    | take t _ _ hobject hopen _ hobject' =>
      obtain rfl : t = s := Option.some.inj (hobject.symm.trans hs)
      exact ⟨_, hobject', hended⟩
    | leave t hobject hobject' =>
      obtain rfl : t = s := Option.some.inj (hobject.symm.trans hs)
      exact ⟨_, hobject', .inr rfl⟩
    | shut t hobject hobject' => exact ⟨_, hobject', .inl rfl⟩

/-- A call that has the subscription ahead still has, unless this step visits it. -/
def Ahead (i call : Nat) (event : LiveEvent P) (o : Observed P) : Prop :=
  ∃ p, o.broker.publications call = some p ∧ p.event = event ∧ p.targets i = true

def Taken (i call : Nat) (event : LiveEvent P) (o : Observed P) : Prop :=
  call ∈ o.offered i ∧ o.eventOf call = some event

theorem taken_step {n call : Nat} {event : LiveEvent P} (hsound : Observed.Sound n i o)
    (h : Observed.step blake2b o a = some o') (htaken : Taken i call event o) :
    Taken i call event o' := by
  obtain ⟨hmem, hevent⟩ := htaken
  constructor
  · rcases Observed.offered_step (i := i) h with hsame | ⟨c, p, -, -, hadded⟩
    · exact hsame ▸ hmem
    · rw [hadded]
      exact List.mem_append_left _ hmem
  · exact (Observed.visited_step (Observed.step_eq_some h).1 hsound hmem).2.trans hevent

theorem offered_grows (h : Observed.step blake2b o a = some o') :
    o.offered i <+: o'.offered i := by
  rcases Observed.offered_step (i := i) h with hsame | ⟨c, p, -, -, hadded⟩
  · rw [hsame]
  · rw [hadded]
    exact List.prefix_append _ _

theorem ahead_step {call : Nat} {event : LiveEvent P}
    (h : Observed.step blake2b o a = some o') (hahead : Ahead i call event o) :
    Ahead i call event o' ∨ Taken i call event o' ∨ Over i o' := by
  obtain ⟨hcall, hnote⟩ := Observed.step_eq_some h
  obtain ⟨p, hp, hevent, htarget⟩ := hahead
  have hkept := MemoryLiveBroker.publication_kept hcall hp
  cases MemoryLiveBroker.advances_of_callStep call hcall with
  | other hsame => exact .inl ⟨p, hsame.trans hp, hevent, htarget⟩
  | start _ _ hnone =>
    rw [hnone] at hp
    cases hp
  | visit j publication hpublication _ hvisited =>
    obtain rfl : publication = p := Option.some.inj (hpublication.symm.trans hp)
    by_cases hj : i = j
    · subst hj
      obtain ⟨p', hp', hevent', -⟩ := hkept
      -- the visit itself: an open subscription takes the event, a closed one does not
      cases MemoryLiveBroker.moves_of_callStep i hcall with
      | other _ _ hnot | leave _ _ _ _ hnot | shut _ _ _ _ hnot => exact absurd rfl (hnot call)
      | offer _ _ s _ _ hobject hobject' =>
        cases hclosed : s.closed with
        | true =>
          rw [Subscriber.offer_closed hclosed] at hobject'
          exact .inr (.inr (.inr (.inr ⟨s, hobject', .inl hclosed⟩)))
        | false =>
          have hoffered := (Observed.note_deliver o'.broker call hobject hclosed).1
          rw [← hnote] at hoffered
          right; left
          constructor
          · rw [hoffered]
            exact List.mem_append_right _ (List.mem_singleton.mpr rfl)
          · rw [Observed.eventOf, hp', Option.map_some, hevent', hevent]
    · refine .inl ⟨_, hvisited, hevent, ?_⟩
      show Function.update publication.targets j false i = true
      rw [Function.update_of_ne hj, htarget]

end Frames

/-! ### What the broker keeps -/

def takesLock : BrokerCall P → Bool
  | .publish _ _ _ => true
  | .subscribe _ _ => true
  | .discard _ => true
  | .close => true
  | _ => false

/-- The records are sound, and the line at the lock holds each call of `publish` once, before its
work, and the pump at most with its own topics. -/
structure Good (n i : Nat) (topics : List String) (b : MemorySide P) : Prop where
  sound : Observed.Sound n i b.observed
  own : ∀ ts, .subscribe i ts ∈ b.line → ts = topics
  forms : ∀ c ∈ b.line, takesLock c = true
  fresh : ∀ call topic event, .publish call topic event ∈ b.line →
    b.observed.broker.publications call = none ∧ topic ≠ "" ∧ acceptedEvent event = true
  distinct : (b.line.filterMap publishedCall).Nodup

section Good

variable {blake2b : List UInt8 → String} {n i : Nat} {topics : List String} {b b' : MemorySide P}

theorem mem_publishedCall {call : Nat} {topic : String} {event : LiveEvent P}
    {line : List (BrokerCall P)} (h : .publish call topic event ∈ line) :
    call ∈ line.filterMap publishedCall :=
  List.mem_filterMap.mpr ⟨_, h, rfl⟩

theorem filterMap_concat {line : List (BrokerCall P)} {call : BrokerCall P}
    (h : publishedCall call = none) :
    (line ++ [call]).filterMap publishedCall = line.filterMap publishedCall := by
  rw [List.filterMap_append, List.filterMap_cons_none h, List.filterMap_nil, List.append_nil]

theorem good_enter (h : Good n i topics b) :
    Good n i topics { b with line := b.line ++ [.subscribe i topics] } where
  sound := h.sound
  own := by
    intro ts hts
    rcases List.mem_append.mp hts with hts | hts
    · exact h.own ts hts
    · cases List.mem_singleton.mp hts
      rfl
  forms := by
    intro c hc
    rcases List.mem_append.mp hc with hc | hc
    · exact h.forms c hc
    · rw [List.mem_singleton.mp hc]
      rfl
  fresh := by
    intro call topic event hmem
    rcases List.mem_append.mp hmem with hmem | hmem
    · exact h.fresh call topic event hmem
    · cases List.mem_singleton.mp hmem
  distinct := by
    rw [filterMap_concat rfl]
    exact h.distinct

theorem good_request (h : Good n i topics b) {call : BrokerCall P}
    (hguard : b.requestable i call = true) :
    Good n i topics { b with line := b.line ++ [call] } where
  -- A call that waits in the line has been checked, and has done nothing yet.
  sound := h.sound
  own := by
    intro ts hts
    rcases List.mem_append.mp hts with hts | hts
    · exact h.own ts hts
    · rw [← List.mem_singleton.mp hts] at hguard
      simp [requestable] at hguard
  -- only calls that take the lock stand in the line
  forms := by
    intro c hc
    rcases List.mem_append.mp hc with hc | hc
    · exact h.forms c hc
    · rw [List.mem_singleton.mp hc]
      cases call with
      | publish | subscribe | discard | close => rfl
      | deliver | consume | finish | closeSubscriber => cases hguard
  fresh := by
    intro c topic event hmem
    rcases List.mem_append.mp hmem with hmem | hmem
    · exact h.fresh c topic event hmem
    · rw [← List.mem_singleton.mp hmem] at hguard
      simp only [requestable, Bool.and_eq_true, decide_eq_true_eq, Option.isNone_iff_eq_none]
        at hguard
      exact ⟨hguard.1.2, hguard.1.1.1, hguard.1.1.2⟩
  distinct := by
    cases call with
    | publish c topic event =>
      simp only [requestable, Bool.and_eq_true, Bool.not_eq_true', List.contains_eq_mem,
        decide_eq_false_iff_not] at hguard
      rw [List.filterMap_append]
      exact h.distinct.append (List.nodup_singleton c) (by simpa [publishedCall] using hguard.2)
    | subscribe | discard | close =>
      rw [filterMap_concat rfl]
      exact h.distinct
    | deliver | consume | finish | closeSubscriber => cases hguard

/-- The holder of the lock has done its work, or was refused. -/
theorem grant_cases (h : step blake2b i b .grant = some b') :
    ∃ call line, b.line = call :: line ∧ b'.line = line ∧
      (Observed.step blake2b b.observed call = some b'.observed ∧ b'.refused = b.refused ∨
        Observed.step blake2b b.observed call = none ∧ b'.observed = b.observed ∧
          b'.refused = (b.refused || enrols i call)) := by
  simp only [step] at h
  split at h
  · cases h
  · next call line hline =>
    refine ⟨call, line, hline, ?_⟩
    split at h
    · next o ho =>
      cases h
      exact ⟨rfl, .inl ⟨ho, rfl⟩⟩
    · next hnone =>
      cases h
      exact ⟨rfl, .inr ⟨hnone, rfl, rfl⟩⟩

theorem sound_next (hn : 1 ≤ n) (h : Good n i topics b) {call : BrokerCall P} {o : Observed P}
    (ho : Observed.step blake2b b.observed call = some o) : Observed.Sound n i o :=
  Observed.sound_step hn h.sound ho

theorem good_grant (hn : 1 ≤ n) (h : Good n i topics b)
    (hstep : step blake2b i b .grant = some b') : Good n i topics b' := by
  obtain ⟨call, line, hline, hline', hwork⟩ := grant_cases hstep
  have hsub : ∀ c ∈ line, c ∈ b.line := fun c hc => by rw [hline]; exact List.mem_cons_of_mem _ hc
  have hdistinct := h.distinct
  rw [hline, List.filterMap_cons] at hdistinct
  -- the numbers in the line are distinct, and that of the head is not among the rest
  have hrest : (line.filterMap publishedCall).Nodup ∧
      ∀ c, publishedCall call = some c → c ∉ line.filterMap publishedCall := by
    cases hcall : publishedCall call with
    | none => exact ⟨by simpa [hcall] using hdistinct, fun c hc => by cases hc⟩
    | some c =>
      rw [hcall] at hdistinct
      obtain ⟨hnot, hnodup⟩ := List.nodup_cons.mp hdistinct
      exact ⟨hnodup, fun d hd => Option.some.inj hd ▸ hnot⟩
  constructor
  -- carried out, the head is a step of the broker; refused, it changes nothing but the line
  case sound =>
    rcases hwork with ⟨ho, -⟩ | ⟨-, hsame, -⟩
    · exact sound_next hn h ho
    · rw [hsame]
      exact h.sound
  case own => exact fun ts hts => h.own ts (hsub _ (hline' ▸ hts))
  case forms => exact fun c hc => h.forms c (hsub _ (hline' ▸ hc))
  case fresh =>
    intro c topic event hmem
    rw [hline'] at hmem
    obtain ⟨hnone, hvalid⟩ := h.fresh c topic event (hsub _ hmem)
    refine ⟨?_, hvalid⟩
    rcases hwork with ⟨ho, -⟩ | ⟨-, hsame, -⟩
    · exact unpublished_step ho hnone fun heq => hrest.2 c heq (mem_publishedCall hmem)
    · rw [hsame]
      exact hnone
  case distinct =>
    rw [hline']
    exact hrest.1

theorem good_act (hn : 1 ≤ n) (h : Good n i topics b) {call : BrokerCall P} {o : Observed P}
    (hcall : publishedCall call = none) (ho : Observed.step blake2b b.observed call = some o) :
    Good n i topics { b with observed := o } where
  sound := sound_next hn h ho
  own := h.own
  forms := h.forms
  fresh c topic event hmem := by
    obtain ⟨hnone, hvalid⟩ := h.fresh c topic event hmem
    exact ⟨unpublished_step ho hnone (by simp [hcall]), hvalid⟩
  distinct := h.distinct

theorem publishedCall_of_lockless {call : BrokerCall P} (h : lockless i call = true) :
    publishedCall call = none ∧ call ≠ .consume i := by
  cases call with
  | publish | subscribe | discard | close => cases h
  | deliver | finish | closeSubscriber => exact ⟨rfl, by simp⟩
  | consume j =>
    have hj : j ≠ i := by simpa [lockless] using h
    exact ⟨rfl, by simpa using hj⟩

/-- An action of the other tasks, by what it does to the line and to the records. -/
theorem step_cases {a : MemoryAction P} (h : step blake2b i b a = some b') :
    (∃ call, a = .request call ∧ b.requestable i call = true ∧
      b' = { b with line := b.line ++ [call] }) ∨
    (a = .grant ∧ step blake2b i b .grant = some b') ∨
    ∃ call o, a = .act call ∧ lockless i call = true ∧
      Observed.step blake2b b.observed call = some o ∧ b' = { b with observed := o } := by
  cases a with
  | request call =>
    simp only [step] at h
    split at h
    · next hguard => exact .inl ⟨call, rfl, hguard, (Option.some.inj h).symm⟩
    · cases h
  | grant => exact .inr (.inl ⟨rfl, h⟩)
  | act call =>
    simp only [step] at h
    split at h
    · next hguard =>
      obtain ⟨o, ho, rfl⟩ := Option.map_eq_some_iff.mp h
      exact .inr (.inr ⟨call, o, rfl, hguard, ho, rfl⟩)
    · cases h

theorem good_step (hn : 1 ≤ n) (h : Good n i topics b) {a : MemoryAction P}
    (hstep : step blake2b i b a = some b') : Good n i topics b' := by
  obtain ⟨call, -, hguard, rfl⟩ | ⟨-, hgrant⟩ | ⟨call, o, -, hguard, ho, rfl⟩ := step_cases hstep
  · exact good_request h hguard
  · exact good_grant hn h hgrant
  · exact good_act hn h (publishedCall_of_lockless hguard).1 ho

theorem queued_cons {event : LiveEvent P} {rest : List (LiveEvent P)}
    (h : queued i b = event :: rest) :
    ∃ s, b.observed.broker.objects i = some s ∧ s.closed = false ∧ s.left = false ∧
      s.events = event :: rest := by
  unfold queued at h
  split at h
  · next s hs =>
    split at h
    · cases h
    · next hopen =>
      simp only [Bool.or_eq_true, not_or, Bool.not_eq_true] at hopen
      exact ⟨s, hs, hopen.1, hopen.2, h⟩
  · cases h

/-- `subscribe` yields the first event of the queue. -/
theorem take_cases {event : LiveEvent P} (h : take blake2b i b = some (event, b')) :
    ∃ o, Observed.step blake2b b.observed (.consume i) = some o ∧ b' = { b with observed := o } ∧
      o.broker.received i = b.observed.broker.received i ++ [event] := by
  unfold take at h
  split at h
  · cases h
  · next event' rest hqueued =>
    obtain ⟨o, ho, heq⟩ := Option.map_eq_some_iff.mp h
    obtain ⟨rfl, rfl⟩ := Prod.mk.inj heq
    obtain ⟨s, hs, hopen, hleft, hevents⟩ := queued_cons hqueued
    refine ⟨o, ho, rfl, ?_⟩
    have hcall := (Observed.step_eq_some ho).1
    simp only [MemoryLiveBroker.callStep, MemoryLiveBroker.step, hs, hopen, hleft, hevents,
      Bool.false_eq_true, if_false, Option.some.injEq] at hcall
    rw [← hcall]
    exact Function.update_self ..

theorem take_of_queued {event : LiveEvent P} {rest : List (LiveEvent P)}
    (hopen : b.refused = false ∧ ¬ Over i b.observed) (h : queued i b = event :: rest) :
    ∃ b', take blake2b i b = some (event, b') ∧ queued i b' = rest ∧
      (b'.refused = false ∧ ¬ Over i b'.observed) := by
  obtain ⟨s, hs, hclosed, hleft, hevents⟩ := queued_cons h
  have hstep : ∃ o, Observed.step blake2b b.observed (.consume i) = some o ∧
      o.broker.objects i = some { s with events := rest } ∧
      o.broker.closed = b.observed.broker.closed ∧ o.overflowed = b.observed.overflowed := by
    have hcall : MemoryLiveBroker.callStep blake2b b.observed.broker (.consume i) =
        some { b.observed.broker.putObject i { s with events := rest } with
          received := Function.update b.observed.broker.received i
            (b.observed.broker.received i ++ [event]) } := by
      simp [MemoryLiveBroker.callStep, MemoryLiveBroker.step, hs, hclosed, hleft, hevents]
    have ho := congrArg (Option.map fun b' => b.observed.note b' (.consume i)) hcall
    exact ⟨_, ho, MemoryLiveBroker.objects_putObject_self, rfl, rfl⟩
  obtain ⟨o, ho, hobject, hbroker, hoverflowed⟩ := hstep
  refine ⟨{ b with observed := o }, by simp [take, h, ho], ?_, hopen.1, ?_⟩
  · simp [queued, hobject, hclosed, hleft]
  · rintro (hover | hover | ⟨t, ht, hended⟩)
    · exact hopen.2 (.inl (hbroker ▸ hover))
    · exact hopen.2 (.inr (.inl (hoverflowed ▸ hover)))
    · rw [hobject] at ht
      obtain rfl := Option.some.inj ht
      exact hopen.2 (.inr (.inr ⟨s, hs, hended⟩))

/-! ### A call that asks for the lock behind the pump -/

theorem enrolled_subscribe {o o' : Observed P}
    (h : Observed.step blake2b o (.subscribe i topics) = some o') : Enrolled i topics o' := by
  have hcall := (Observed.step_eq_some h).1
  simp only [MemoryLiveBroker.callStep] at hcall
  split at hcall
  · cases hcall
  · rw [Enrolled, ← Option.some.inj hcall]
    exact ⟨_, MemoryLiveBroker.objects_putObject_self, rfl⟩

/-- The snapshot of a publication has every subscription to its topic that is registered. -/
theorem ahead_publish {o o' : Observed P} {call : Nat} {topic : String} {event : LiveEvent P}
    (hsound : Observed.Sound n i o) (henrolled : Enrolled i topics o) (htopic : topic ∈ topics)
    (h : Observed.step blake2b o (.publish call topic event) = some o') :
    Ahead i call event o' ∨ Over i o := by
  obtain ⟨s, hs, rfl⟩ := henrolled
  rcases hsound.enrolled s hs with hleft | hclosed | hregistered
  · exact .inr (.inr (.inr ⟨s, hs, .inr hleft⟩))
  · exact .inr (.inl hclosed)
  · left
    have hcall := (Observed.step_eq_some h).1
    simp only [MemoryLiveBroker.callStep] at hcall
    split at hcall
    · cases hcall
    · rw [Ahead, ← Option.some.inj hcall]
      refine ⟨_, Function.update_self .., rfl, ?_⟩
      simp [MemoryLiveBroker.listens, hregistered, hs, htopic]

/-- A call that is valid is refused by a closed broker only. -/
theorem closed_of_refused {o : Observed P} {call : Nat} {topic : String} {event : LiveEvent P}
    (hnone : o.broker.publications call = none) (htopic : topic ≠ "")
    (haccepted : acceptedEvent event = true)
    (h : Observed.step blake2b o (.publish call topic event) = none) : o.broker.closed = true := by
  rw [← Bool.not_eq_false]
  intro hopen
  simp [Observed.step, MemoryLiveBroker.callStep, hnone, htopic, haccepted, hopen] at h

/-- The subscription is registered, or its pump waits for the lock, or it is over. -/
def Entered (i : Nat) (topics : List String) (b : MemorySide P) : Prop :=
  Enrolled i topics b.observed ∨ .subscribe i topics ∈ b.line ∨
    b.refused = true ∨ Over i b.observed

/-- A call on one of the topics waits for the lock behind the pump, or has the subscription ahead, or
has been taken by it, or the subscription is over. -/
def Followed (i : Nat) (topics : List String) (c : Nat × String × LiveEvent P)
    (b : MemorySide P) : Prop :=
  c.2.1 ∈ topics →
    (∃ front back, b.line = front ++ .publish c.1 c.2.1 c.2.2 :: back ∧
      (Enrolled i topics b.observed ∨ .subscribe i topics ∈ front)) ∨
    Ahead i c.1 c.2.2 b.observed ∨ Taken i c.1 c.2.2 b.observed ∨
    b.refused = true ∨ Over i b.observed

theorem entered_step {a : MemoryAction P} (h : Entered i topics b)
    (hstep : step blake2b i b a = some b') : Entered i topics b' := by
  -- The subscription waits in the line, is in the table, was refused, or its queue is over.
  obtain ⟨call, -, -, rfl⟩ | ⟨-, hgrant⟩ | ⟨call, o, -, -, ho, rfl⟩ := step_cases hstep
  · rcases h with henrolled | hwaits | hrefused | hover
    · exact .inl henrolled
    · exact .inr (.inl (List.mem_append_left _ hwaits))
    · exact .inr (.inr (.inl hrefused))
    · exact .inr (.inr (.inr hover))
  · obtain ⟨call, line, hline, hline', hwork⟩ := grant_cases hgrant
    -- the head of the line gets the lock: it is carried out, or refused
    rcases hwork with ⟨ho, hsame⟩ | ⟨hnone, hsame, hrefused'⟩
    · rcases h with henrolled | hwaits | hrefused | hover
      · exact .inl (enrolled_step ho henrolled)
      · rw [hline] at hwaits
        rcases List.mem_cons.mp hwaits with rfl | hwaits
        -- its own subscription is carried out
        · exact .inl (enrolled_subscribe ho)
        · exact .inr (.inl (hline' ▸ hwaits))
      · exact .inr (.inr (.inl (hsame.trans hrefused)))
      · exact .inr (.inr (.inr (over_step ho hover)))
    · rw [Entered, hsame, hrefused', hline']
      rcases h with henrolled | hwaits | hrefused | hover
      · exact .inl henrolled
      · rw [hline] at hwaits
        rcases List.mem_cons.mp hwaits with rfl | hwaits
        · exact .inr (.inr (.inl (by simp [enrols])))
        · exact .inr (.inl hwaits)
      · exact .inr (.inr (.inl (by simp [hrefused])))
      · exact .inr (.inr (.inr hover))
  · rcases h with henrolled | hwaits | hrefused | hover
    · exact .inl (enrolled_step ho henrolled)
    · exact .inr (.inl hwaits)
    · exact .inr (.inr (.inl hrefused))
    · exact .inr (.inr (.inr (over_step ho hover)))

/-- A step on the records alone keeps what follows a call. -/
theorem followed_records {call : BrokerCall P} {o : Observed P} {c : Nat × String × LiveEvent P}
    (hsound : Observed.Sound n i b.observed)
    (ho : Observed.step blake2b b.observed call = some o) (h : Followed i topics c b) :
    Followed i topics c { b with observed := o } := by
  intro htopic
  rcases h htopic with ⟨front, back, hline, hbefore⟩ | hahead | htaken | hrefused | hover
  · exact .inl ⟨front, back, hline, hbefore.imp_left (enrolled_step ho)⟩
  · rcases ahead_step ho hahead with hahead | htaken | hover
    · exact .inr (.inl hahead)
    · exact .inr (.inr (.inl htaken))
    · exact .inr (.inr (.inr (.inr hover)))
  · exact .inr (.inr (.inl (taken_step hsound ho htaken)))
  · exact .inr (.inr (.inr (.inl hrefused)))
  · exact .inr (.inr (.inr (.inr (over_step ho hover))))

/-- The line of a call behind the pump moves on. -/
theorem followed_grant {c : Nat × String × LiveEvent P} (hgood : Good n i topics b)
    (h : Followed i topics c b) (hstep : step blake2b i b .grant = some b') :
    Followed i topics c b' := by
  intro htopic
  obtain ⟨call, line, hline, hline', hwork⟩ := grant_cases hstep
  -- The publication waits in the line, or it is already on its way.
  rcases h htopic with ⟨front, back, hwhole, hbefore⟩ | hlater
  · rw [hline] at hwhole
    rcases front with _ | ⟨head, front⟩
    · -- the call itself holds the lock, and nothing is before it
      obtain ⟨rfl, rfl⟩ := List.cons.inj hwhole
      have henrolled : Enrolled i topics b.observed := hbefore.resolve_right (by simp)
      obtain ⟨hnone, hnonempty, haccepted⟩ := hgood.fresh c.1 c.2.1 c.2.2 (by simp [hline])
      rcases hwork with ⟨ho, -⟩ | ⟨hrefused, hsame, -⟩
      · rcases ahead_publish hgood.sound henrolled htopic ho with hahead | hover
        · exact .inr (.inl hahead)
        · exact .inr (.inr (.inr (.inr (over_step ho hover))))
      · have hclosed := closed_of_refused hnone hnonempty haccepted hrefused
        exact .inr (.inr (.inr (.inr (.inl (hsame ▸ hclosed)))))
    -- another call holds the lock: what is before the publication is one call shorter
    · obtain ⟨rfl, rfl⟩ := List.cons.inj hwhole
      rcases hwork with ⟨ho, -⟩ | ⟨-, hsame, hrefused⟩
      · refine .inl ⟨front, back, hline', ?_⟩
        rcases hbefore with henrolled | hpump
        · exact .inl (enrolled_step ho henrolled)
        · rcases List.mem_cons.mp hpump with hhead | hpump
          · rw [← hhead] at ho
            exact .inl (enrolled_subscribe ho)
          · exact .inr hpump
      · rcases hbefore with henrolled | hpump
        · exact .inl ⟨front, back, hline', .inl (hsame ▸ henrolled)⟩
        · rcases List.mem_cons.mp hpump with hhead | hpump
          · refine .inr (.inr (.inr (.inl ?_)))
            rw [hrefused, ← hhead]
            simp [enrols]
          · exact .inl ⟨front, back, hline', .inr hpump⟩
  · rcases hwork with ⟨ho, hsame⟩ | ⟨-, hsame, hrefused⟩
    · have hrecords : Followed i topics c { b with line := [] } := fun _ => .inr hlater
      have hnext := followed_records (b := { b with line := [] }) hgood.sound ho hrecords htopic
      right
      rcases hnext with ⟨front, back, hempty, -⟩ | hnext
      · simp at hempty
      · rw [hsame]
        exact hnext
    · right
      rw [hsame, hrefused]
      rcases hlater with hahead | htaken | hover | hover
      · exact .inl hahead
      · exact .inr (.inl htaken)
      · exact .inr (.inr (.inl (by simp [hover])))
      · exact .inr (.inr (.inr hover))

/-- Another task asks for the lock behind a call. -/
theorem followed_behind (call : BrokerCall P) {c : Nat × String × LiveEvent P}
    (h : Followed i topics c b) : Followed i topics c { b with line := b.line ++ [call] } := by
  intro htopic
  refine (h htopic).imp_left ?_
  rintro ⟨front, back, hline, hbefore⟩
  exact ⟨front, back ++ [call], by simp [hline], hbefore⟩

theorem followed_step {a : MemoryAction P} {c : Nat × String × LiveEvent P}
    (hgood : Good n i topics b) (h : Followed i topics c b)
    (hstep : step blake2b i b a = some b') : Followed i topics c b' := by
  obtain ⟨call, -, -, rfl⟩ | ⟨-, hgrant⟩ | ⟨call, o, -, -, ho, rfl⟩ := step_cases hstep
  · exact followed_behind call h
  · exact followed_grant hgood h hgrant
  · exact followed_records hgood.sound ho h

/-- A call asks for the lock when the pump has asked for it. -/
theorem followed_start {a : MemoryAction P} {c : Nat × String × LiveEvent P}
    (hentered : Entered i topics b) (hstep : step blake2b i b a = some b')
    (hstarts : (side blake2b i topics).starts a = some c) : Followed i topics c b' := by
  intro htopic
  obtain ⟨call, rfl, -, rfl⟩ | ⟨rfl, -⟩ | ⟨call, o, rfl, -⟩ := step_cases hstep
  · cases call with
    | publish call topic event =>
      obtain rfl : (call, topic, event) = c := Option.some.inj hstarts
      rcases hentered with henrolled | hwaits | hover
      · exact .inl ⟨b.line, [], rfl, .inl henrolled⟩
      · exact .inl ⟨b.line, [], rfl, .inr hwaits⟩
      · exact .inr (.inr (.inr hover))
    | _ => cases hstarts
  · cases hstarts
  · cases hstarts

end Good

/-- The memory broker keeps its account of a subscription. -/
def keeps (blake2b : List UInt8 → String) {n : Nat} (hn : 1 ≤ n) (i : Nat) (topics : List String) :
    Keeps (views (P := P) blake2b i topics) topics fun _ _ _ => True where
  Inv := Good n i topics
  Entered := Entered i topics
  Followed := Followed i topics
  inv_enter h := good_enter h
  inv_step h hstep := good_step hn h hstep
  inv_take h htake := by
    obtain ⟨o, ho, rfl, -⟩ := take_cases htake
    exact good_act hn h rfl ho
  given_enter _ := rfl
  given_step h hstep := by
    obtain ⟨call, -, -, rfl⟩ | ⟨-, hgrant⟩ | ⟨call, o, -, hlockless, ho, rfl⟩ := step_cases hstep
    · rfl
    · obtain ⟨call, line, hline, -, ⟨ho, -⟩ | ⟨-, hsame, -⟩⟩ := grant_cases hgrant
      · have hform := h.forms call (by simp [hline])
        exact received_step ho fun heq => by rw [heq] at hform; cases hform
      · exact congrArg (fun o => o.broker.received i) hsame
    · exact received_step ho (publishedCall_of_lockless hlockless).2
  given_take h htake := by
    obtain ⟨o, ho, rfl, hreceived⟩ := take_cases htake
    exact hreceived
  -- a queue that is open has lost nothing
  whole := by
    intro b h hopen
    show (b.observed.broker.received i ++ queued i b).map some = _
    cases hobject : b.observed.broker.objects i with
    | none =>
      obtain ⟨hoffered, hreceived⟩ := h.sound.blank hobject
      show _ = (b.observed.offered i).map _
      simp [queued, hobject, hoffered, hreceived]
    | some s =>
      -- open means that the subscriber is neither closed nor gone, and that nothing overflowed
      have hstays : s.closed = false ∧ s.left = false := by
        constructor
        · exact Bool.eq_false_iff.mpr fun hc => hopen.2 (.inr (.inr ⟨s, hobject, .inl hc⟩))
        · exact Bool.eq_false_iff.mpr fun hl => hopen.2 (.inr (.inr ⟨s, hobject, .inr hl⟩))
      have hno : b.observed.overflowed i = false :=
        Bool.eq_false_iff.mpr fun hover => hopen.2 (.inr (.inl hover))
      have hqueued : queued i b = s.events := by simp [queued, hobject, hstays.1, hstays.2]
      rw [hqueued]
      exact (h.sound.inOrder hno s hobject).2 hstays.1
  nodup h := h.sound.nodup
  offered_enter _ := List.prefix_rfl
  offered_step := by
    intro b b' a _ hstep
    obtain ⟨call, -, -, rfl⟩ | ⟨-, hgrant⟩ | ⟨call, o, -, -, ho, rfl⟩ := step_cases hstep
    · exact List.prefix_rfl
    · obtain ⟨call, line, -, -, ⟨ho, -⟩ | ⟨-, hsame, -⟩⟩ := grant_cases hgrant
      · exact offered_grows ho
      · show b.observed.offered i <+: b'.observed.offered i
        rw [hsame]
    · exact offered_grows ho
  offered_take _ htake := by
    obtain ⟨o, ho, rfl, -⟩ := take_cases htake
    exact offered_grows ho
  take_of_queued _ hopen hqueued := take_of_queued hopen hqueued
  entered_enter _ := .inr (.inl (List.mem_append_right _ (List.mem_singleton.mpr rfl)))
  entered_step _ h hstep := entered_step h hstep
  entered_take _ h htake := by
    obtain ⟨o, ho, rfl, -⟩ := take_cases htake
    rcases h with henrolled | hwaits | hrefused | hover
    · exact .inl (enrolled_step ho henrolled)
    · exact .inr (.inl hwaits)
    · exact .inr (.inr (.inl hrefused))
    · exact .inr (.inr (.inr (over_step ho hover)))
  followed_start _ hentered hstep hstarts := followed_start hentered hstep hstarts
  followed_enter _ h := followed_behind _ h
  followed_step hgood h _ hstep := followed_step hgood h hstep
  followed_take hgood h htake := by
    obtain ⟨o, ho, rfl, -⟩ := take_cases htake
    exact followed_records hgood.sound ho h
  -- what waits in the line and what has not visited the subscriber are both under way
  arrives := by
    intro b call topic event hgood h hopen htopic
    rcases h htopic with ⟨front, back, hline, -⟩ | ⟨p, hp, -, htarget⟩ | htaken | hrefused | hover
    · have hmem : .publish call topic event ∈ b.line := by simp [hline]
      exact .inl (.inl (mem_publishedCall hmem))
    · exact .inl (.inr ⟨p, hp, htarget⟩)
    · exact .inr htaken
    · rw [hopen.1] at hrefused
      cases hrefused
    · exact absurd hover hopen.2

end MemorySide

/-! ## The Redis broker -/

/-- How events travel: `model_dump_json`, `validate_json` and `max_message_bytes`. -/
structure EventWire (P : Type) where
  Message : Type
  encode : LiveEvent P → Message
  decode : Message → Option (LiveEvent P)
  fits : Message → Bool
  decode_encode : ∀ event, decode (encode event) = some event

/-- A call of `publish`, in any process. -/
structure RedisPublication (P : Type) where
  topic : String
  event : LiveEvent P
  /-- Redis has run its `PUBLISH`. -/
  executed : Bool := false
  refused : Bool := false

/-- The connection of one subscription, and the calls of `publish`. -/
structure RedisSide (P : Type) (W : EventWire P) where
  /-- The pump has begun its `SUBSCRIBE`. -/
  requested : Bool := false
  /-- Redis has run it. -/
  subscribed : Bool := false
  publications : Nat → Option (RedisPublication P) := fun _ => none
  /-- The messages that Redis has sent to the connection and `get_message` has not returned. -/
  inbox : List W.Message := []
  offered : List Nat := []
  given : List (LiveEvent P) := []

inductive RedisAction (P : Type) where
  | publish (call : Nat) (topic : String) (event : LiveEvent P)
  /-- The call fails: the broker is closed, the message too long, the connection lost. -/
  | refuse (call : Nat)
  /-- Redis runs the `PUBLISH` of a call. -/
  | execute (call : Nat)
  /-- Redis runs the `SUBSCRIBE` of the pump. -/
  | subscribe

namespace RedisSide

section Side

variable {W : EventWire P} (channelPrefix : String) (topics : List String)

/-- `_channel`. -/
def channel (topic : String) : String := channelPrefix ++ topic

def put (b : RedisSide P W) (call : Nat) (p : RedisPublication P) : RedisSide P W :=
  { b with publications := Function.update b.publications call (some p) }

def step (b : RedisSide P W) : RedisAction P → Option (RedisSide P W)
  -- a call publishes once
  | .publish call topic event =>
    if topic = "" || (b.publications call).isSome then none
    else some (b.put call { topic := topic, event := event })
  -- the connection fails before Redis has the message
  | .refuse call =>
    match b.publications call with
    | some p => if p.executed then none else some (b.put call { p with refused := true })
    | none => none
  | .execute call =>
    match b.publications call with
    | some p =>
      -- only a subscription that Redis knows gets the message
      if p.executed || p.refused || !W.fits (W.encode p.event) then none
      else if b.subscribed &&
          (topics.map (channel channelPrefix)).contains (channel channelPrefix p.topic) then
        some { b.put call { p with executed := true } with
          inbox := b.inbox ++ [W.encode p.event], offered := b.offered ++ [call] }
      else some (b.put call { p with executed := true })
    | none => none
  -- SUBSCRIBE runs some time after the request
  | .subscribe =>
    if b.requested && !b.subscribed then some { b with subscribed := true } else none

/-- `get_message`, the bound on its length and the checks of the event; `none` where the loop waits or
raises. -/
def take (b : RedisSide P W) : Option (LiveEvent P × RedisSide P W) :=
  match b.inbox with
  | [] => none
  | message :: inbox =>
    if W.fits message then
      (W.decode message).map fun event =>
        (event, { b with inbox := inbox, given := b.given ++ [event] })
    else none

def side (W : EventWire P) : BrokerSide (LiveEvent P) where
  State := RedisSide P W
  Action := RedisAction P
  step := step channelPrefix topics
  enter b := { b with requested := true }
  take := take
  starts
    | .publish call topic event => some (call, topic, event)
    | _ => none

def eventOf (b : RedisSide P W) (call : Nat) : Option (LiveEvent P) :=
  (b.publications call).map RedisPublication.event

def views (W : EventWire P) : Views (side channelPrefix topics W) where
  given b := b.given
  queued b := b.inbox.filterMap W.decode
  offered b := b.offered
  eventOf b := eventOf b
  underWay b call := ∃ p, b.publications call = some p ∧ p.executed = false
  isOpen _ := True

/-- No call that began after the ready frame reaches Redis before the `SUBSCRIBE`. -/
def Registered (b : RedisSide P W) (call : Nat) (a : RedisAction P) : Prop :=
  a = .execute call → b.subscribed = true

end Side

section Keeps

variable {W : EventWire P} {channelPrefix : String} {topics : List String} {b b' : RedisSide P W}

theorem channel_injective : Function.Injective (channel channelPrefix) := by
  intro s t h
  have hlists := congrArg String.toList h
  simp only [channel, String.toList_append] at hlists
  exact String.toList_injective (List.append_cancel_left hlists)

/-- The messages are those of the events taken and not yet given. -/
structure Good (b : RedisSide P W) : Prop where
  account : ∃ events, b.inbox = events.map W.encode ∧
    (∀ event ∈ events, W.fits (W.encode event) = true) ∧
    (b.given ++ events).map some = b.offered.map b.eventOf
  executed : ∀ call ∈ b.offered, ∃ p, b.publications call = some p ∧ p.executed = true
  nodup : b.offered.Nodup

/-- A call whose event stays, and which is not in the records unless it stays executed. -/
theorem Good.put (h : Good b) {call : Nat} {p : RedisPublication P}
    (hkeeps : ∀ q, b.publications call = some q → p.event = q.event ∧
      (q.executed = true → p.executed = true)) : Good (b.put call p) := by
  have hexecuted : ∀ c ∈ b.offered, (b.put call p).eventOf c = b.eventOf c ∧
      ∃ q, (b.put call p).publications c = some q ∧ q.executed = true := by
    intro c hc
    obtain ⟨q, hq, hdone⟩ := h.executed c hc
    by_cases hcall : c = call
    · subst hcall
      obtain ⟨hevent, hstays⟩ := hkeeps q hq
      have hput : (b.put c p).publications c = some p := Function.update_self ..
      exact ⟨by simp [eventOf, hput, hq, hevent], p, hput, hstays hdone⟩
    · have hput : (b.put call p).publications c = b.publications c :=
        Function.update_of_ne hcall _ _
      exact ⟨by simp [eventOf, hput], q, hput.trans hq, hdone⟩
  constructor
  case account =>
    obtain ⟨events, hinbox, hfit, hwhole⟩ := h.account
    refine ⟨events, hinbox, hfit, hwhole.trans ?_⟩
    exact (List.map_congr_left fun c hc => (hexecuted c hc).1).symm
  case executed => exact fun c hc => (hexecuted c hc).2
  case nodup => exact h.nodup

/-- Redis sends the message of a call to the connection. -/
theorem Good.deliver (h : Good b) {call : Nat} {p : RedisPublication P}
    (hp : b.publications call = some p) (hexecuted : p.executed = false)
    (hfits : W.fits (W.encode p.event) = true) :
    Good { b.put call { p with executed := true } with
      inbox := b.inbox ++ [W.encode p.event], offered := b.offered ++ [call] } := by
  have hput : Good (b.put call { p with executed := true }) := by
    apply h.put
    intro q hq
    obtain rfl := Option.some.inj (hp.symm.trans hq)
    exact ⟨rfl, fun _ => rfl⟩
  have hself : (b.put call { p with executed := true }).publications call =
      some { p with executed := true } := Function.update_self ..
  constructor
  case account =>
    obtain ⟨events, hinbox, hfit, hwhole⟩ := hput.account
    -- the new message is the last one in the inbox
    refine ⟨events ++ [p.event], ?_, ?_, ?_⟩
    · rw [List.map_append, ← hinbox]
      rfl
    · intro event hevent
      rcases List.mem_append.mp hevent with hevent | hevent
      · exact hfit event hevent
      · exact List.mem_singleton.mp hevent ▸ hfits
    · have hlast : (b.put call { p with executed := true }).eventOf call = some p.event := by
        rw [eventOf, hself]
        rfl
      show (b.given ++ (events ++ [p.event])).map some =
        (b.offered ++ [call]).map (b.put call { p with executed := true }).eventOf
      have hold : (b.given ++ events).map some =
        b.offered.map (b.put call { p with executed := true }).eventOf := hwhole
      rw [← List.append_assoc, List.map_append, hold, List.map_append, List.map_singleton,
        List.map_singleton, hlast]
  -- what was offered was executed, so a call that is executed now is new
  case executed =>
    intro c hc
    rcases List.mem_append.mp hc with hc | hc
    · exact hput.executed c hc
    · obtain rfl := List.mem_singleton.mp hc
      exact ⟨_, hself, rfl⟩
  case nodup =>
    have hnew : call ∉ b.offered := by
      intro hmem
      obtain ⟨q, hq, hdone⟩ := h.executed call hmem
      obtain rfl := Option.some.inj (hp.symm.trans hq)
      rw [hexecuted] at hdone
      cases hdone
    exact h.nodup.append (List.nodup_singleton call) (by simpa using hnew)

/-- The actions of the others, by what they do to the calls and to the connection. -/
theorem step_cases {a : RedisAction P} (h : step channelPrefix topics b a = some b') :
    (∃ call topic event, a = .publish call topic event ∧ b.publications call = none ∧
      b' = b.put call { topic := topic, event := event }) ∨
    (∃ call p, a = .refuse call ∧ b.publications call = some p ∧ p.executed = false ∧
      b' = b.put call { p with refused := true }) ∨
    (∃ call p, a = .execute call ∧ b.publications call = some p ∧ p.executed = false ∧
      W.fits (W.encode p.event) = true ∧
      ((b.subscribed = true ∧ p.topic ∈ topics ∧
          b' = { b.put call { p with executed := true } with
            inbox := b.inbox ++ [W.encode p.event], offered := b.offered ++ [call] }) ∨
        (¬ (b.subscribed = true ∧ p.topic ∈ topics) ∧
          b' = b.put call { p with executed := true }))) ∨
    (a = .subscribe ∧ b' = { b with subscribed := true }) := by
  -- One case for each action, with the guards under which it happens.
  cases a with
  | publish call topic event =>
    simp only [step] at h
    split at h
    · cases h
    · next hguard =>
      simp only [Bool.or_eq_true, decide_eq_true_eq, not_or, Bool.not_eq_true,
        Option.isSome_eq_false_iff, Option.isNone_iff_eq_none] at hguard
      exact .inl ⟨call, topic, event, rfl, hguard.2, (Option.some.inj h).symm⟩
  | refuse call =>
    simp only [step] at h
    split at h
    · next p hp =>
      split at h
      · cases h
      · next hexecuted =>
        exact .inr (.inl ⟨call, p, rfl, hp, by simpa using hexecuted, (Option.some.inj h).symm⟩)
    · cases h
  | execute call =>
    simp only [step] at h
    split at h
    · next p hp =>
      split at h
      · cases h
      · next hguard =>
        simp only [Bool.or_eq_true, Bool.not_eq_true', not_or, Bool.not_eq_true,
          Bool.not_eq_false] at hguard
        -- channels are apart exactly as the topics are
        have hlistens : (topics.map (channel channelPrefix)).contains
            (channel channelPrefix p.topic) = true ↔ p.topic ∈ topics := by
          rw [List.contains_iff_mem, List.mem_map_of_injective channel_injective]
        refine .inr (.inr (.inl ⟨call, p, rfl, hp, hguard.1.1, hguard.2, ?_⟩))
        split at h
        · next hlistening =>
          obtain ⟨hsubscribed, htopic⟩ := Bool.and_eq_true_iff.mp hlistening
          exact .inl ⟨hsubscribed, hlistens.mp htopic, (Option.some.inj h).symm⟩
        · next hdeaf =>
          refine .inr ⟨?_, (Option.some.inj h).symm⟩
          rintro ⟨hsubscribed, htopic⟩
          exact hdeaf (Bool.and_eq_true_iff.mpr ⟨hsubscribed, hlistens.mpr htopic⟩)
    · cases h
  | subscribe =>
    simp only [step] at h
    split at h
    · exact .inr (.inr (.inr ⟨rfl, (Option.some.inj h).symm⟩))
    · cases h

theorem good_step (h : Good b) {a : RedisAction P}
    (hstep : step channelPrefix topics b a = some b') : Good b' := by
  obtain ⟨call, topic, event, -, hnone, rfl⟩ | ⟨call, p, -, hp, -, rfl⟩ |
    ⟨call, p, -, hp, hexecuted, hfits, hwork⟩ | ⟨-, rfl⟩ := step_cases hstep
  · apply h.put
    intro q hq
    rw [hnone] at hq
    cases hq
  · apply h.put
    intro q hq
    obtain rfl := Option.some.inj (hp.symm.trans hq)
    exact ⟨rfl, id⟩
  · rcases hwork with ⟨-, -, rfl⟩ | ⟨-, rfl⟩
    · exact h.deliver hp hexecuted hfits
    · apply h.put
      intro q hq
      obtain rfl := Option.some.inj (hp.symm.trans hq)
      exact ⟨rfl, fun _ => rfl⟩
  · exact ⟨h.account, h.executed, h.nodup⟩

theorem queued_eq {events : List (LiveEvent P)} (h : b.inbox = events.map W.encode) :
    b.inbox.filterMap W.decode = events := by
  rw [h, List.filterMap_map]
  have hround : W.decode ∘ W.encode = some := funext W.decode_encode
  rw [hround, List.filterMap_some]

/-- The oldest message is yielded. -/
theorem take_cases {event : LiveEvent P} (h : Good b) (htake : take b = some (event, b')) :
    Good b' ∧ b'.given = b.given ++ [event] ∧ b'.publications = b.publications ∧
      b'.offered = b.offered := by
  obtain ⟨events, hinbox, hfit, hwhole⟩ := h.account
  unfold take at htake
  split at htake
  · cases htake
  · next message inbox hhead =>
    split at htake
    · obtain ⟨event', hdecode, heq⟩ := Option.map_eq_some_iff.mp htake
      obtain ⟨rfl, rfl⟩ := Prod.mk.inj heq
      refine ⟨⟨?_, h.executed, h.nodup⟩, rfl, rfl, rfl⟩
      cases events with
      | nil =>
        rw [hhead] at hinbox
        cases hinbox
      | cons first events =>
        rw [hhead] at hinbox
        obtain ⟨rfl, rfl⟩ := List.cons.inj hinbox
        rw [W.decode_encode] at hdecode
        obtain rfl := Option.some.inj hdecode
        refine ⟨events, rfl, fun e he => hfit e (List.mem_cons_of_mem _ he), ?_⟩
        rw [List.append_assoc, List.singleton_append]
        exact hwhole
    · cases htake

theorem take_of_queued {event : LiveEvent P} {rest : List (LiveEvent P)} (h : Good b)
    (hqueued : b.inbox.filterMap W.decode = event :: rest) :
    ∃ b', take b = some (event, b') ∧ b'.inbox.filterMap W.decode = rest := by
  obtain ⟨events, hinbox, hfit, -⟩ := h.account
  rw [queued_eq hinbox] at hqueued
  subst hqueued
  refine ⟨{ b with inbox := rest.map W.encode, given := b.given ++ [event] }, ?_, ?_⟩
  · simp [take, hinbox, hfit event (by simp), W.decode_encode]
  · exact queued_eq rfl

/-- A call on one of the topics that Redis has run has been taken by the subscription. -/
def Followed (topics : List String) (c : Nat × String × LiveEvent P) (b : RedisSide P W) : Prop :=
  c.2.1 ∈ topics → ∃ p, b.publications c.1 = some p ∧ p.topic = c.2.1 ∧ p.event = c.2.2 ∧
    (p.executed = true → c.1 ∈ b.offered)

/-- Other calls leave what follows a call as it is. -/
theorem followed_put {c : Nat × String × LiveEvent P} {call : Nat} {p : RedisPublication P}
    (h : Followed topics c b)
    (hsame : call = c.1 → ∀ q, b.publications call = some q →
      p.topic = q.topic ∧ p.event = q.event ∧ (p.executed = true → q.executed = true)) :
    Followed topics c (b.put call p) := by
  intro htopic
  obtain ⟨q, hq, hqtopic, hqevent, hqdone⟩ := h htopic
  by_cases hcall : call = c.1
  · obtain ⟨hptopic, hpevent, hpdone⟩ := hsame hcall q (hcall ▸ hq)
    refine ⟨p, ?_, hptopic.trans hqtopic, hpevent.trans hqevent, fun hdone => hqdone (hpdone hdone)⟩
    rw [hcall]
    exact Function.update_self ..
  · exact ⟨q, (Function.update_of_ne (Ne.symm hcall) _ _).trans hq, hqtopic, hqevent, hqdone⟩

theorem followed_step {a : RedisAction P} {c : Nat × String × LiveEvent P}
    (h : Followed topics c b) (hregistered : Registered b c.1 a)
    (hstep : step channelPrefix topics b a = some b') : Followed topics c b' := by
  obtain ⟨call, topic, event, rfl, hnone, rfl⟩ | ⟨call, p, rfl, hp, -, rfl⟩ |
    ⟨call, p, rfl, hp, -, -, hwork⟩ | ⟨rfl, rfl⟩ := step_cases hstep
  · apply followed_put h
    intro _ q hq
    rw [hnone] at hq
    cases hq
  · apply followed_put h
    intro _ q hq
    obtain rfl := Option.some.inj (hp.symm.trans hq)
    exact ⟨rfl, rfl, id⟩
  -- the publication itself is executed now; it was admitted only after SUBSCRIBE
  · intro htopic
    obtain ⟨q, hq, hqtopic, hqevent, hqdone⟩ := h htopic
    by_cases hcall : call = c.1
    · subst hcall
      obtain rfl := Option.some.inj (hp.symm.trans hq)
      have hsubscribed := hregistered rfl
      rcases hwork with ⟨-, -, rfl⟩ | ⟨hdeaf, -⟩
      · refine ⟨{ p with executed := true }, Function.update_self .., hqtopic, hqevent, fun _ => ?_⟩
        exact List.mem_append_right _ (List.mem_singleton.mpr rfl)
      · exact absurd ⟨hsubscribed, hqtopic ▸ htopic⟩ hdeaf
    -- another publication leaves it as it is
    · have hother : ∀ p', (b.put call p').publications c.1 = some q := fun p' =>
        (Function.update_of_ne (Ne.symm hcall) _ _).trans hq
      rcases hwork with ⟨-, -, rfl⟩ | ⟨-, rfl⟩
      · exact ⟨q, hother _, hqtopic, hqevent, fun hdone => List.mem_append_left _ (hqdone hdone)⟩
      · exact ⟨q, hother _, hqtopic, hqevent, hqdone⟩
  · exact h

theorem followed_start {a : RedisAction P} {c : Nat × String × LiveEvent P}
    (hstep : step channelPrefix topics b a = some b')
    (hstarts : (side channelPrefix topics W).starts a = some c) : Followed topics c b' := by
  intro _
  obtain ⟨call, topic, event, rfl, -, rfl⟩ | ⟨call, p, rfl, -⟩ | ⟨call, p, rfl, -⟩ | ⟨rfl, -⟩ :=
    step_cases hstep
  · obtain rfl : (call, topic, event) = c := Option.some.inj hstarts
    exact ⟨_, Function.update_self .., rfl, rfl, fun hdone => by cases hdone⟩
  · cases hstarts
  · cases hstarts
  · cases hstarts

end Keeps

/-- The Redis broker keeps its account of a subscription whose `SUBSCRIBE` has been run in time. -/
def keeps (channelPrefix : String) (topics : List String) (W : EventWire P) :
    Keeps (views channelPrefix topics W) topics Registered where
  Inv := Good
  Entered _ := True
  Followed := Followed topics
  inv_enter h := ⟨h.account, h.executed, h.nodup⟩
  inv_step h hstep := good_step h hstep
  inv_take h htake := (take_cases h htake).1
  given_enter _ := rfl
  -- no action gives an event away
  given_step := by
    intro b b' a _ hstep
    obtain ⟨call, topic, event, -, -, rfl⟩ | ⟨call, p, -, -, -, rfl⟩ |
      ⟨call, p, -, -, -, -, ⟨-, -, rfl⟩ | ⟨-, rfl⟩⟩ | ⟨-, rfl⟩ := step_cases hstep
    all_goals rfl
  given_take h htake := (take_cases h htake).2.1
  whole := by
    intro b h _
    obtain ⟨events, hinbox, -, hwhole⟩ := h.account
    show (b.given ++ b.inbox.filterMap W.decode).map some = _
    rw [queued_eq hinbox]
    exact hwhole
  nodup h := h.nodup
  offered_enter _ := List.prefix_rfl
  offered_step := by
    intro b b' a _ hstep
    obtain ⟨call, topic, event, -, -, rfl⟩ | ⟨call, p, -, -, -, rfl⟩ |
      ⟨call, p, -, -, -, -, ⟨-, -, rfl⟩ | ⟨-, rfl⟩⟩ | ⟨-, rfl⟩ := step_cases hstep
    case inr.inr.inl.inl => exact List.prefix_append _ _
    all_goals exact List.prefix_rfl
  offered_take := by
    intro b b' e h htake
    show b.offered <+: b'.offered
    rw [(take_cases h htake).2.2.2]
  take_of_queued h _ hqueued := by
    obtain ⟨b', htake, hrest⟩ := take_of_queued h hqueued
    exact ⟨b', htake, hrest, trivial⟩
  entered_enter _ := trivial
  entered_step _ _ _ := trivial
  entered_take _ _ _ := trivial
  followed_start _ _ hstep hstarts := followed_start hstep hstarts
  followed_enter _ h := h
  followed_step _ h hregistered hstep := followed_step h hregistered hstep
  followed_take := by
    intro b b' e c hgood h htake htopic
    obtain ⟨-, -, hpublications, hoffered⟩ := take_cases hgood htake
    obtain ⟨p, hp, hshape⟩ := h htopic
    rw [← hoffered] at hshape
    exact ⟨p, hpublications ▸ hp, hshape⟩
  arrives := by
    intro b call topic event _ h _ htopic
    obtain ⟨p, hp, -, hevent, hdone⟩ := h htopic
    -- executed means offered, everything else is still under way
    cases hexecuted : p.executed with
    | false => exact .inl ⟨p, hp, hexecuted⟩
    | true =>
      refine .inr ⟨hdone hexecuted, ?_⟩
      show (b.publications call).map RedisPublication.event = some event
      rw [hp, Option.map_some, hevent]

end RedisSide

/-! ## No gap after the ready frame -/

/-- The stream of a subscription in every run over a memory broker, and over Redis in every run in
which no call of `publish` that began after the ready frame reaches Redis before the `SUBSCRIBE`:
the ready frame comes first; what has been emitted since, what is on its way and what is queued are
together the events that the subscription has taken, each call once, those that do not overlap in
their order; every call on its topics that began after the ready frame is among them when it is no
longer under way; and the two tasks can emit all that is left. -/
theorem no_gap_after_ready {blake2b : List UInt8 → String} {maxQueueSize : Int}
    {b₀ : MemoryLiveBroker P} (hnew : MemoryLiveBroker.create maxQueueSize = some b₀) (i : Nat)
    (topics keys : List String) (channelPrefix : String) (W : EventWire P)
    (H : ObjectStream (LiveEvent P)) :
    (∀ t : LiveStream (MemorySide.side blake2b i topics) H,
      Run (LiveStream.step (.ready keys)) Always
          { broker := ({ observed := { broker := b₀ } } : MemorySide P) } t →
        NoGap (MemorySide.views blake2b i topics) topics (.ready keys) Always t) ∧
    (∀ t : LiveStream (RedisSide.side channelPrefix topics W) H,
      Run (LiveStream.step (.ready keys)) (Admits RedisSide.Registered)
          { broker := ({} : RedisSide P W) } t →
        NoGap (RedisSide.views channelPrefix topics W) topics (.ready keys)
          (Admits RedisSide.Registered) t) := by
  -- the constructor refuses a size below one
  obtain ⟨hn, rfl⟩ : 1 ≤ maxQueueSize.toNat ∧ b₀ = { maxQueueSize := maxQueueSize.toNat } := by
    unfold MemoryLiveBroker.create at hnew
    split at hnew
    · cases hnew
    · exact ⟨by omega, (Option.some.inj hnew).symm⟩
  constructor
  -- the memory broker: nothing has to be assumed of its actions
  · intro t hrun
    have hsound := Observed.sound_new (P := P) maxQueueSize.toNat i
    have hgood : MemorySide.Good maxQueueSize.toNat i topics
        ({ observed := { broker := { maxQueueSize := maxQueueSize.toNat } } } : MemorySide P) :=
      ⟨hsound, by simp, by simp, by simp, by simp⟩
    have hadmits : ∀ (t : LiveStream (MemorySide.side blake2b i topics) H) a, Always t a →
        Admits (fun _ _ _ => True) t a := by
      intro t a _
      cases a with
      | broker a => exact fun _ _ => trivial
      | _ => trivial
    have hnogap := noGap_run (MemorySide.keeps blake2b hn i topics) hgood rfl (hrun.mono hadmits)
    exact { hnogap with order := fun t' hrun' => hnogap.order t' (hrun'.mono hadmits) }
  -- the Redis broker: a publication counts once SUBSCRIBE has run
  · intro t hrun
    have hgood : RedisSide.Good ({} : RedisSide P W) :=
      ⟨⟨[], rfl, by simp, rfl⟩, by simp, List.nodup_nil⟩
    exact noGap_run (RedisSide.keeps channelPrefix topics W) hgood rfl hrun

/-- Events that travel as they are. -/
def plainWire : EventWire Nat where
  Message := LiveEvent Nat
  encode := id
  decode := some
  fits _ := true
  decode_encode _ := rfl

/-- A publication that begins right behind the ready frame, while the pump still waits for the lock. -/
def publishedAtOnce : List (StreamAction (MemoryAction Nat)) :=
  [.start, .turn, .turn, .broker (.request (.publish 0 "rooms" (.invalidate ["a"] none))),
    .broker .grant, .broker .grant, .broker (.act (.deliver 0 0)), .next false, .timeout false,
    .take, .send, .next false, .receive]

/-- A publication that Redis runs behind the `SUBSCRIBE`; it may have begun before. -/
def publishedBehind : List (StreamAction (RedisAction Nat)) :=
  [.start, .turn, .turn, .broker (.publish 0 "rooms" (.invalidate ["a"] none)),
    .broker .subscribe, .broker (.execute 0), .next false, .timeout false, .take, .send,
    .next false, .receive]

/-- Redis runs no `PUBLISH` before the `SUBSCRIBE`. -/
def subscribedFirst {H : ObjectStream (LiveEvent Nat)}
    (t : LiveStream (RedisSide.side "live:" ["rooms"] plainWire) H) :
    StreamAction (RedisSide.side "live:" ["rooms"] plainWire).Action → Bool
  | .broker (.execute _) => (show RedisSide Nat plainWire from t.broker).subscribed
  | _ => true

theorem admits_of_subscribedFirst {H : ObjectStream (LiveEvent Nat)}
    {t : LiveStream (RedisSide.side "live:" ["rooms"] plainWire) H}
    {a : StreamAction (RedisSide.side "live:" ["rooms"] plainWire).Action} (h : subscribedFirst t a = true) :
    Admits RedisSide.Registered t a := by
  cases a with
  | broker a =>
    rintro c - rfl
    exact h
  | _ => trivial

/-- Over both brokers it is emitted, behind a heartbeat. -/
theorem published_at_once :
    (∃ t : LiveStream (MemorySide.side (fun _ => "") 0 ["rooms"]) (oneSlot (LiveEvent Nat)),
      exec (LiveStream.step (.ready ["a"]))
        { broker := ({ observed := { broker := { maxQueueSize := 1 } } } : MemorySide Nat) }
        publishedAtOnce = some t ∧ t.frames.length = 3 ∧ t.late.length = 1 ∧
      NoGap (MemorySide.views (fun _ => "") 0 ["rooms"]) ["rooms"] (.ready ["a"]) Always t) ∧
    ∃ t : LiveStream (RedisSide.side "live:" ["rooms"] plainWire) (oneSlot (LiveEvent Nat)),
      Run (LiveStream.step (.ready ["a"])) (Admits RedisSide.Registered)
        { broker := ({} : RedisSide Nat plainWire) } t ∧ t.frames.length = 3 ∧ t.late.length = 1 ∧
      NoGap (RedisSide.views "live:" ["rooms"] plainWire) ["rooms"] (.ready ["a"])
        (Admits RedisSide.Registered) t := by
  have hnew : MemoryLiveBroker.create (P := Nat) 1 = some { maxQueueSize := 1 } := rfl
  obtain ⟨hmemory, hredis⟩ := @no_gap_after_ready Nat (fun _ => "") 1 _ hnew 0 ["rooms"] ["a"]
    "live:" plainWire (oneSlot (LiveEvent Nat))
  constructor
  · obtain ⟨t, ht⟩ := Option.isSome_iff_exists.mp (show (exec (LiveStream.step (.ready ["a"]))
      ({ broker := ({ observed := { broker := { maxQueueSize := 1 } } } : MemorySide Nat) } :
        LiveStream (MemorySide.side (fun _ => "") 0 ["rooms"]) (oneSlot (LiveEvent Nat)))
      publishedAtOnce).isSome = true by decide)
    have hcounts : ((exec (LiveStream.step (.ready ["a"]))
        ({ broker := ({ observed := { broker := { maxQueueSize := 1 } } } : MemorySide Nat) } :
          LiveStream (MemorySide.side (fun _ => "") 0 ["rooms"]) (oneSlot (LiveEvent Nat)))
        publishedAtOnce).map fun t => (t.frames.length, t.late.length)) = some (3, 1) := by
      decide
    rw [ht] at hcounts
    obtain ⟨hframes, hlate⟩ := Prod.mk.inj (Option.some.inj hcounts)
    exact ⟨t, ht, hframes, hlate, hmemory t (Run.of_exec ht)⟩
  · have hrun : ((execUnder (LiveStream.step (LiveEvent.ready ["a"]))
        -- the run checks the condition step by step
        (fun t a => subscribedFirst t a = true)
        ({ broker := ({} : RedisSide Nat plainWire) } :
          LiveStream (RedisSide.side "live:" ["rooms"] plainWire) (oneSlot (LiveEvent Nat)))
        publishedBehind).any fun t => t.frames.length = 3 ∧ t.late.length = 1) = true := by
      decide
    obtain ⟨t, ht, hshown⟩ := (Option.any_eq_true _ _).mp hrun
    obtain ⟨hframes, hlate⟩ := of_decide_eq_true hshown
    have hadmitted : Run (LiveStream.step (.ready ["a"])) (Admits RedisSide.Registered)
        { broker := ({} : RedisSide Nat plainWire) } t :=
      (Run.of_execUnder ht).mono fun _ _ h => admits_of_subscribedFirst h
    exact ⟨t, hadmitted, hframes, hlate, hredis t hadmitted⟩

/-- Redis runs the `PUBLISH` of a call that began after the ready frame, and then the `SUBSCRIBE`. -/
def publishedTooSoon : List (StreamAction (RedisAction Nat)) :=
  [.start, .turn, .turn, .broker (.publish 0 "rooms" (.invalidate ["a"] none)),
    .broker (.execute 0), .broker .subscribe]

/-- The event is lost: its call is over, and the subscription has not taken it. -/
theorem published_too_soon :
    ¬ ∀ t : LiveStream (RedisSide.side "live:" ["rooms"] plainWire) (oneSlot (LiveEvent Nat)),
      Run (LiveStream.step (.ready ["a"])) Always { broker := ({} : RedisSide Nat plainWire) } t →
        NoGap (RedisSide.views "live:" ["rooms"] plainWire) ["rooms"] (.ready ["a"]) Always t := by
  intro hclaim
  have hrun : ∃ t : LiveStream (RedisSide.side "live:" ["rooms"] plainWire)
      (oneSlot (LiveEvent Nat)),
      exec (LiveStream.step (.ready ["a"])) { broker := ({} : RedisSide Nat plainWire) }
        publishedTooSoon = some t ∧ (0, "rooms", .invalidate ["a"] none) ∈ t.late ∧
      t.broker.publications 0 =
        some { topic := "rooms", event := .invalidate ["a"] none, executed := true } ∧
      t.broker.offered = [] := ⟨_, rfl, by simp [RedisSide.side], rfl, rfl⟩
  obtain ⟨t, ht, hlate, hexecuted, hoffered⟩ := hrun
  rcases (hclaim t (Run.of_exec ht)).late trivial 0 "rooms" _ hlate (by simp) with
    ⟨p, hp, hwaiting⟩ | ⟨hmem, -⟩
  · obtain rfl := Option.some.inj (hexecuted.symm.trans hp)
    cases hwaiting
  · have hnone : (0 : Nat) ∈ t.broker.offered := hmem
    rw [hoffered] at hnone
    cases hnone

end FluxFast.Server

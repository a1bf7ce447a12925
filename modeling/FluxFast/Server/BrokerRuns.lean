import FluxFast.Server.BrokerDelivery

/-!
# BrokerRuns — no key published to a subscription is lost

Runs of the broker under any interleaving of publications, subscriptions, consumers and closing.
`Sound` is what every step keeps for one subscription; `Reaches` follows the keys of one
publication.
-/

namespace FluxFast.Server

open FluxFast.Theory
open FluxFast.Core (LiveEvent)

variable {P : Type}

/-! ## A record of the offers -/

/-- A broker with a record, for each subscription, of the calls that offered it an event while it
was open, oldest first, and of whether an offer found its queue full.  The program keeps neither. -/
structure Observed (P : Type) where
  broker : MemoryLiveBroker P
  offered : Nat → List Nat := fun _ => []
  overflowed : Nat → Bool := fun _ => false

namespace Observed

open MemoryLiveBroker

def note (o : Observed P) (b : MemoryLiveBroker P) : BrokerCall P → Observed P
  | .deliver call i =>
    match o.broker.objects i with
    | some s =>
      if s.closed then { o with broker := b }
      else
        { broker := b
          offered := Function.update o.offered i (o.offered i ++ [call])
          overflowed :=
            Function.update o.overflowed i (o.overflowed i || s.full o.broker.maxQueueSize) }
    | none => { o with broker := b }
  | _ => { o with broker := b }

def step (blake2b : List UInt8 → String) (o : Observed P) (a : BrokerCall P) :
    Option (Observed P) :=
  (callStep blake2b o.broker a).map fun b => o.note b a

/-- The event that a call published. -/
def eventOf (o : Observed P) (call : Nat) : Option (LiveEvent P) :=
  (o.broker.publications call).map Publication.event

/-- Every subscriber that the call found has been visited. -/
def Returned (o : Observed P) (call : Nat) : Prop :=
  ∃ p, o.broker.publications call = some p ∧ ∀ i, p.targets i = false

section Steps

variable {blake2b : List UInt8 → String} {o o' : Observed P} {a : BrokerCall P} {i : Nat}

@[simp] theorem broker_note (b : MemoryLiveBroker P) (a : BrokerCall P) :
    (o.note b a).broker = b := by
  unfold note
  split
  · split
    · split <;> rfl
    · rfl
  · rfl

theorem step_eq_some (h : step blake2b o a = some o') :
    callStep blake2b o.broker a = some o'.broker ∧ o' = o.note o'.broker a := by
  obtain ⟨b, hb, rfl⟩ := Option.map_eq_some_iff.mp h
  rw [broker_note]
  exact ⟨hb, rfl⟩

theorem note_of_not_deliver (b : MemoryLiveBroker P) (hnot : ∀ call, a ≠ .deliver call i) :
    (o.note b a).offered i = o.offered i ∧ (o.note b a).overflowed i = o.overflowed i := by
  unfold note
  split
  · rename_i call j
    have hj : i ≠ j := fun heq => hnot call (heq ▸ rfl)
    split
    · split
      · exact ⟨rfl, rfl⟩
      · exact ⟨Function.update_of_ne hj _ _, Function.update_of_ne hj _ _⟩
    · exact ⟨rfl, rfl⟩
  · exact ⟨rfl, rfl⟩

theorem note_deliver {s : Subscriber P} (b : MemoryLiveBroker P) (call : Nat)
    (hobject : o.broker.objects i = some s) (hopen : s.closed = false) :
    (o.note b (.deliver call i)).offered i = o.offered i ++ [call] ∧
      (o.note b (.deliver call i)).overflowed i =
        (o.overflowed i || s.full o.broker.maxQueueSize) := by
  simp only [note, hobject, hopen, Bool.false_eq_true, if_false, Function.update_self, and_self]

theorem note_deliver_closed {s : Subscriber P} (b : MemoryLiveBroker P) (call : Nat)
    (hobject : o.broker.objects i = some s) (hclosed : s.closed = true) :
    (o.note b (.deliver call i)).offered i = o.offered i ∧
      (o.note b (.deliver call i)).overflowed i = o.overflowed i := by
  simp only [note, hobject, hclosed, if_true, and_self]

end Steps

/-! ## What every step keeps -/

/-- The record of the offers agrees with the subscription, whose queue keeps its bound and is empty
once it is closed. -/
structure Sound (maxQueueSize i : Nat) (o : Observed P) : Prop where
  size : o.broker.maxQueueSize = maxQueueSize
  published : ∀ call p, o.broker.publications call = some p → acceptedEvent p.event = true
  queued : ∀ s, o.broker.objects i = some s → ∀ e ∈ s.events, acceptedEvent e = true
  bounded : ∀ s, o.broker.objects i = some s → s.events.length ≤ maxQueueSize
  drained : ∀ s, o.broker.objects i = some s → s.closed = true → s.events = []
  enrolled : ∀ s, o.broker.objects i = some s →
    s.left = true ∨ o.broker.closed = true ∨ o.broker.registered i = true
  blank : o.broker.objects i = none → o.offered i = [] ∧ o.broker.received i = []
  visited : ∀ call ∈ o.offered i, ∃ p, o.broker.publications call = some p ∧ p.targets i = false
  nodup : (o.offered i).Nodup
  inOrder : o.overflowed i = false → ∀ s, o.broker.objects i = some s →
    (o.broker.received i ++ s.events).map some <+: (o.offered i).map o.eventOf ∧
      (s.closed = false →
        (o.broker.received i ++ s.events).map some = (o.offered i).map o.eventOf)

theorem sound_new (maxQueueSize i : Nat) :
    Sound maxQueueSize i ({ broker := { maxQueueSize := maxQueueSize } } : Observed P) where
  size := rfl
  published _ _ hp := by cases hp
  queued _ hs := by cases hs
  bounded _ hs := by cases hs
  drained _ hs := by cases hs
  enrolled _ hs := by cases hs
  blank _ := ⟨rfl, rfl⟩
  visited _ hcall := by cases hcall
  nodup := List.nodup_nil
  inOrder _ _ hs := by cases hs

section Steps

variable {blake2b : List UInt8 → String} {maxQueueSize i : Nat} {o o' : Observed P}
  {a : BrokerCall P}

theorem published_step (hcall : callStep blake2b o.broker a = some o'.broker)
    (h : Sound maxQueueSize i o) (call : Nat) (p : Publication P)
    (hp : o'.broker.publications call = some p) : acceptedEvent p.event = true := by
  cases advances_of_callStep call hcall with
  | other hsame _ => exact h.published call p (hsame.symm.trans hp)
  | start topic event _ hsome haccepted =>
    obtain rfl := Option.some.inj (hsome.symm.trans hp)
    exact haccepted
  | visit j publication hpublication _ hvisited =>
    obtain rfl := Option.some.inj (hvisited.symm.trans hp)
    exact h.published call publication hpublication

theorem visited_step (hcall : callStep blake2b o.broker a = some o'.broker)
    (h : Sound maxQueueSize i o) {call : Nat} (hmem : call ∈ o.offered i) :
    (∃ p, o'.broker.publications call = some p ∧ p.targets i = false) ∧
      o'.eventOf call = o.eventOf call := by
  obtain ⟨p, hp, htarget⟩ := h.visited call hmem
  obtain ⟨p', hp', hevent, hkept⟩ := publication_kept hcall hp
  refine ⟨⟨p', hp', hkept i htarget⟩, ?_⟩
  rw [eventOf, eventOf, hp, hp', Option.map_some, Option.map_some, hevent]

/-- The events of the calls recorded so far are unchanged. -/
theorem map_eventOf_step (hcall : callStep blake2b o.broker a = some o'.broker)
    (h : Sound maxQueueSize i o) :
    (o.offered i).map o'.eventOf = (o.offered i).map o.eventOf :=
  List.map_congr_left fun _ hmem => (visited_step hcall h hmem).2

/-- A step after which the subscription `i` has the state `s'`, where the record is unchanged. -/
theorem sound_of_move (h : Sound maxQueueSize i o)
    (hcall : callStep blake2b o.broker a = some o'.broker)
    (hoffered : o'.offered i = o.offered i) (hoverflowed : o'.overflowed i = o.overflowed i)
    {s' : Subscriber P} (hobject : o'.broker.objects i = some s')
    (hqueued : ∀ e ∈ s'.events, acceptedEvent e = true) (hbounded : s'.events.length ≤ maxQueueSize)
    (hdrained : s'.closed = true → s'.events = [])
    (hinOrder : o.overflowed i = false →
      (o'.broker.received i ++ s'.events).map some <+: (o.offered i).map o.eventOf ∧
        (s'.closed = false →
          (o'.broker.received i ++ s'.events).map some = (o.offered i).map o.eventOf)) :
    Sound maxQueueSize i o' := by
  -- What the call did to the subscriber is given; publications and registration follow from it.
  have henrols := enrols_of_callStep i hcall
  have hof : ∀ s, o'.broker.objects i = some s → s' = s := fun s hs =>
    Option.some.inj (hobject.symm.trans hs)
  refine ⟨henrols.size.trans h.size, published_step hcall h, ?_, ?_, ?_,
    henrols.enrolled h.enrolled, ?_, ?_, hoffered ▸ h.nodup, ?_⟩
  · exact fun s hs => hof s hs ▸ hqueued
  · exact fun s hs => hof s hs ▸ hbounded
  · exact fun s hs => hof s hs ▸ hdrained
  · intro hnone
    rw [hobject] at hnone
    cases hnone
  · intro call hmem
    rw [hoffered] at hmem
    exact (visited_step hcall h hmem).1
  · intro hno s hs
    rw [hoverflowed] at hno
    rw [← hof s hs, hoffered, map_eventOf_step hcall h]
    exact hinOrder hno

/-- A step that offers the event of a call to the open subscription `i`. -/
theorem sound_of_offer (hmax : 1 ≤ maxQueueSize) (h : Sound maxQueueSize i o) {call : Nat}
    {publication : Publication P} {s : Subscriber P}
    (hcall : callStep blake2b o.broker (.deliver call i) = some o'.broker)
    (hpublication : o.broker.publications call = some publication)
    (htarget : publication.targets i = true) (hobject : o.broker.objects i = some s)
    (hopen : s.closed = false)
    (hobject' : o'.broker.objects i = some (s.offer o.broker.maxQueueSize publication.event))
    (hreceived : o'.broker.received i = o.broker.received i)
    (hnote : o' = o.note o'.broker (.deliver call i)) : Sound maxQueueSize i o' := by
  rw [h.size] at hobject'
  obtain ⟨hoffered, hoverflowed⟩ := note_deliver o'.broker call hobject hopen
  rw [← hnote] at hoffered hoverflowed
  rw [h.size] at hoverflowed
  -- the event was accepted when it was published
  have haccepted := h.published call publication hpublication
  -- it was not offered before: its target would have been struck off
  have hnew : call ∉ o.offered i := by
    intro hmem
    obtain ⟨p, hp, hno⟩ := h.visited call hmem
    obtain rfl := Option.some.inj (hp.symm.trans hpublication)
    rw [htarget] at hno
    cases hno
  obtain ⟨p', hp', hevent, hdone⟩ : ∃ p', o'.broker.publications call = some p' ∧
      p'.event = publication.event ∧ p'.targets i = false := by
    cases advances_of_callStep call hcall with
    | other _ hnot => exact absurd rfl (hnot i)
    | visit _ p hp _ hvisited =>
      obtain rfl := Option.some.inj (hp.symm.trans hpublication)
      exact ⟨_, hvisited, rfl, Function.update_self ..⟩
  have heventOf : o'.eventOf call = some publication.event := by
    rw [eventOf, hp', Option.map_some, hevent]
  have henrols := enrols_of_callStep i hcall
  have hof : ∀ t, o'.broker.objects i = some t → s.offer maxQueueSize publication.event = t :=
    fun t ht => Option.some.inj (hobject'.symm.trans ht)
  refine ⟨henrols.size.trans h.size, published_step hcall h, ?_, ?_, ?_,
    henrols.enrolled h.enrolled, ?_, ?_, ?_, ?_⟩
  · exact fun t ht => hof t ht ▸ Subscriber.accepted_offer (h.queued s hobject) haccepted
  · exact fun t ht => hof t ht ▸ Subscriber.length_offer hmax (h.bounded s hobject)
  · exact fun t ht => hof t ht ▸ Subscriber.events_offer_of_closed hopen
  · intro hnone
    rw [hobject'] at hnone
    cases hnone
  · intro c hmem
    rw [hoffered] at hmem
    rcases List.mem_append.mp hmem with hmem | hmem
    · exact (visited_step hcall h hmem).1
    · exact List.mem_singleton.mp hmem ▸ ⟨p', hp', hdone⟩
  · rw [hoffered]
    exact h.nodup.append (List.nodup_singleton call) (by simpa using hnew)
  · intro hno t ht
    rw [hoverflowed, Bool.or_eq_false_iff] at hno
    -- without an overflow the event was appended
    have hroom : (s.offer maxQueueSize publication.event) =
        { s with events := s.events ++ [publication.event] } := by
      rcases Subscriber.offer_cases maxQueueSize publication.event hopen with
        ⟨-, hadded⟩ | ⟨hfull, -⟩ | ⟨hfull, -⟩
      · exact hadded
      · exact absurd (hno.2.symm.trans hfull) (by decide)
      · exact absurd (hno.2.symm.trans hfull) (by decide)
    have hwhole : (o'.broker.received i ++ t.events).map some = (o'.offered i).map o'.eventOf := by
      rw [← hof t ht, hroom, hreceived, hoffered, List.map_append (f := o'.eventOf),
        map_eventOf_step hcall h, ← (h.inOrder hno.1 s hobject).2 hopen, List.map_singleton,
        heventOf]
      simp
    exact ⟨hwhole ▸ List.prefix_rfl, fun _ => hwhole⟩

theorem sound_step (hmax : 1 ≤ maxQueueSize) (h : Sound maxQueueSize i o)
    (hstep : step blake2b o a = some o') : Sound maxQueueSize i o' := by
  obtain ⟨hcall, hnote⟩ := step_eq_some hstep
  -- One case for each thing that a call can do to the subscriber.
  cases moves_of_callStep i hcall with
  | other hobject hreceived hnot =>
    obtain ⟨hoffered, hoverflowed⟩ := note_of_not_deliver o'.broker hnot
    rw [← hnote] at hoffered hoverflowed
    cases hs : o.broker.objects i with
    -- nothing happened to it, so what was offered and received stays in order
    | some s =>
      refine sound_of_move h hcall hoffered hoverflowed (hobject.trans hs) (h.queued s hs)
        (h.bounded s hs) (h.drained s hs) fun hno => ?_
      rw [hreceived]
      exact h.inOrder hno s hs
    -- a name that nobody has used received nothing and is offered nothing
    | none =>
      have hnone := hobject.trans hs
      have henrols := enrols_of_callStep i hcall
      have hno : ∀ s, o'.broker.objects i ≠ some s := fun s hs => by rw [hnone] at hs; cases hs
      refine ⟨henrols.size.trans h.size, published_step hcall h, fun s hs => absurd hs (hno s),
        fun s hs => absurd hs (hno s), fun s hs => absurd hs (hno s), fun s hs => absurd hs (hno s),
        fun _ => ?_, fun call hmem => ?_, hoffered ▸ h.nodup, fun _ s hs => absurd hs (hno s)⟩
      · rw [hoffered, hreceived]
        exact h.blank hs
      · rw [hoffered] at hmem
        exact (visited_step hcall h hmem).1
  | enter topics hobject hobject' hreceived =>
    have hnot : ∀ call, BrokerCall.subscribe i topics ≠ .deliver (P := P) call i :=
      fun call heq => by cases heq
    obtain ⟨hoffered, hoverflowed⟩ := note_of_not_deliver o'.broker hnot
    rw [← hnote] at hoffered hoverflowed
    -- a fresh subscriber starts with both lists empty
    obtain ⟨hempty, hnothing⟩ := h.blank hobject
    refine sound_of_move h hcall hoffered hoverflowed hobject' (by simp) (Nat.zero_le _)
      (fun _ => rfl) fun _ => ?_
    rw [hreceived, hnothing, hempty]
    exact ⟨List.prefix_rfl, fun _ => rfl⟩
  | offer call publication s hpublication htarget hobject hobject' hreceived =>
    cases hclosed : s.closed with
    -- an event offered to a closed subscriber is dropped
    | true =>
      obtain ⟨hoffered, hoverflowed⟩ := note_deliver_closed o'.broker call hobject hclosed
      rw [← hnote] at hoffered hoverflowed
      rw [Subscriber.offer_closed hclosed] at hobject'
      refine sound_of_move h hcall hoffered hoverflowed hobject' (h.queued s hobject)
        (h.bounded s hobject) (h.drained s hobject) fun hno => ?_
      rw [hreceived]
      exact h.inOrder hno s hobject
    | false =>
      exact sound_of_offer hmax h hcall hpublication htarget hobject hclosed hobject' hreceived
        hnote
  | take s event events hobject hopen hevents hobject' hreceived =>
    have hnot : ∀ call, BrokerCall.consume i ≠ .deliver (P := P) call i :=
      fun call heq => by cases heq
    obtain ⟨hoffered, hoverflowed⟩ := note_of_not_deliver o'.broker hnot
    rw [← hnote] at hoffered hoverflowed
    have hqueued := h.queued s hobject
    have hbounded := h.bounded s hobject
    rw [hevents] at hqueued hbounded
    refine sound_of_move h hcall hoffered hoverflowed hobject'
      (fun e he => hqueued e (List.mem_cons_of_mem _ he)) (Nat.le_of_succ_le hbounded)
      (fun hclosed => absurd (hopen.symm.trans hclosed) (by decide)) fun hno => ?_
    have hmoved : o'.broker.received i ++ events = o.broker.received i ++ s.events := by
      rw [hreceived, hevents, List.append_assoc, List.singleton_append]
    show (o'.broker.received i ++ events).map some <+: _ ∧ _
    rw [hmoved]
    exact h.inOrder hno s hobject
  | leave s hobject hobject' hreceived hnot =>
    obtain ⟨hoffered, hoverflowed⟩ := note_of_not_deliver o'.broker hnot
    rw [← hnote] at hoffered hoverflowed
    refine sound_of_move h hcall hoffered hoverflowed hobject' (h.queued s hobject)
      (h.bounded s hobject) (h.drained s hobject) fun hno => ?_
    rw [hreceived]
    exact h.inOrder hno s hobject
  | shut s hobject hobject' hreceived hnot =>
    obtain ⟨hoffered, hoverflowed⟩ := note_of_not_deliver o'.broker hnot
    rw [← hnote] at hoffered hoverflowed
    refine sound_of_move h hcall hoffered hoverflowed hobject' (by simp) (Nat.zero_le _)
      (fun _ => rfl) fun hno => ⟨?_, fun hclosed => by cases hclosed⟩
    have hinOrder := (h.inOrder hno s hobject).1
    rw [List.map_append] at hinOrder
    rw [hreceived, List.append_nil]
    exact (List.prefix_append _ _).trans hinOrder

theorem sound_run (hmax : 1 ≤ maxQueueSize) (i : Nat)
    (h : Run (step blake2b) Always
      ({ broker := { maxQueueSize := maxQueueSize } } : Observed P) o) : Sound maxQueueSize i o :=
  h.invariant (fun _ _ _ hs _ hstep => sound_step hmax hs hstep) (sound_new maxQueueSize i)

/-! ## The order of the offers -/

theorem offered_step (hstep : step blake2b o a = some o') :
    o'.offered i = o.offered i ∨ ∃ call p, o.broker.publications call = some p ∧
      p.targets i = true ∧ o'.offered i = o.offered i ++ [call] := by
  obtain ⟨hcall, hnote⟩ := step_eq_some hstep
  have hmoves := moves_of_callStep i hcall
  rw [hnote]
  cases hmoves with
  | other _ _ hnot => exact .inl (note_of_not_deliver _ hnot).1
  | enter topics => exact .inl (note_of_not_deliver _ fun call heq => by cases heq).1
  | take => exact .inl (note_of_not_deliver _ fun call heq => by cases heq).1
  | leave _ _ _ _ hnot => exact .inl (note_of_not_deliver _ hnot).1
  | shut _ _ _ _ hnot => exact .inl (note_of_not_deliver _ hnot).1
  | offer call p s hp htarget hobject =>
    cases hclosed : s.closed with
    | true => exact .inl (note_deliver_closed _ _ hobject hclosed).1
    | false => exact .inr ⟨call, p, hp, htarget, (note_deliver _ _ hobject hclosed).1⟩

theorem returned_step {call : Nat} (h : o.Returned call) (hstep : step blake2b o a = some o') :
    o'.Returned call := by
  obtain ⟨p, hp, hdone⟩ := h
  obtain ⟨p', hp', -, hkept⟩ := publication_kept (step_eq_some hstep).1 hp
  exact ⟨p', hp', fun j => hkept j (hdone j)⟩

/-- What a call that has returned offered comes before everything offered from then on. -/
theorem offered_after_return {first : Nat} (hreturned : o.Returned first)
    (hrun : Run (step blake2b) Always o o') :
    ∃ rest, o'.offered i = o.offered i ++ rest ∧ first ∉ rest := by
  have hall := hrun.invariant
    (I := fun o' => o'.Returned first ∧ ∃ rest, o'.offered i = o.offered i ++ rest ∧ first ∉ rest)
    (fun t a t' ⟨hdone, rest, hrest, hnot⟩ _ hstep => by
      refine ⟨returned_step hdone hstep, ?_⟩
      rcases offered_step (i := i) hstep with hsame | ⟨call, p, hp, htarget, hadded⟩
      · exact ⟨rest, hsame.trans hrest, hnot⟩
      · refine ⟨rest ++ [call], by rw [hadded, hrest, List.append_assoc], fun hmem => ?_⟩
        rcases List.mem_append.mp hmem with hmem | hmem
        · exact hnot hmem
        · obtain ⟨p', hp', hfalse⟩ := hdone
          rw [List.mem_singleton.mp hmem] at hp'
          obtain rfl := Option.some.inj (hp'.symm.trans hp)
          rw [hfalse i] at htarget
          cases htarget)
    ⟨hreturned, [], (List.append_nil _).symm, List.not_mem_nil⟩
  exact hall.2

/-! ## The keys of one publication -/

/-- The publication `call` has still to visit `i`, or the subscription is closed, or each of its
keys was given to `i` after the first `given` events or waits in its queue. -/
def Reaches (event : LiveEvent P) (call i given : Nat) (b : MemoryLiveBroker P) : Prop :=
  given ≤ (b.received i).length ∧ ∃ s, b.objects i = some s ∧
    (s.closed = true ∨
      (∃ p, b.publications call = some p ∧ p.event = event ∧ p.targets i = true) ∨
      ∀ key ∈ eventKeys event, Carried ((b.received i).drop given) s.events event key)

theorem reaches_step {event : LiveEvent P} {call given : Nat} {b b' : MemoryLiveBroker P}
    (h : Reaches event call i given b) (hcall : callStep blake2b b a = some b') :
    Reaches event call i given b' := by
  obtain ⟨hgiven, s, hs, hstate⟩ := h
  -- a publication that has `i` ahead still has, unless this step is its visit
  have hahead : (∀ c, a ≠ .deliver c i) →
      (∃ p, b.publications call = some p ∧ p.event = event ∧ p.targets i = true) →
      ∃ p, b'.publications call = some p ∧ p.event = event ∧ p.targets i = true := by
    rintro hnot ⟨p, hp, hevent, htarget⟩
    cases advances_of_callStep call hcall with
    | other hsame _ => exact ⟨p, hsame.trans hp, hevent, htarget⟩
    | start _ _ hnone => rw [hnone] at hp; cases hp
    | visit j publication hpublication _ hvisited =>
      obtain rfl := Option.some.inj (hpublication.symm.trans hp)
      refine ⟨_, hvisited, hevent, ?_⟩
      have hij : i ≠ j := fun heq => hnot call (heq ▸ rfl)
      show Function.update publication.targets j false i = true
      rw [Function.update_of_ne hij, htarget]
  cases moves_of_callStep i hcall with
  | other hobject hreceived hnot =>
    refine ⟨hreceived ▸ hgiven, s, hobject.trans hs, ?_⟩
    rw [hreceived]
    exact hstate.imp_right (Or.imp_left (hahead hnot))
  | enter _ hnone => rw [hnone] at hs; cases hs
  | offer c publication t hpublication htarget hobject hobject' hreceived =>
    obtain rfl : t = s := Option.some.inj (hobject.symm.trans hs)
    refine ⟨hreceived ▸ hgiven, _, hobject', ?_⟩
    rw [hreceived]
    cases hclosed' : (t.offer b.maxQueueSize publication.event).closed with
    | true => exact .inl rfl
    | false =>
      refine .inr ?_
      rcases hstate with hclosed | ⟨p, hp, hevent, hahead⟩ | hcarried
      · rw [Subscriber.offer_closed hclosed, hclosed] at hclosed'
        cases hclosed'
      · by_cases hc : c = call
        · subst hc
          obtain rfl := Option.some.inj (hpublication.symm.trans hp)
          subst hevent
          refine .inr fun key hkey => (carried_of_offer hkey).resolve_left ?_
          rw [hclosed']
          decide
        · obtain ⟨p', hp', hevent', hkept⟩ := publication_kept hcall hp
          cases advances_of_callStep call hcall with
          | other hsame _ => exact .inl ⟨p, hsame.trans hp, hevent, hahead⟩
          | visit => exact absurd rfl hc
      · refine .inr fun key hkey => ((hcarried key hkey).offer).resolve_left ?_
        rw [hclosed']
        decide
  | take t e events hobject hopen hevents hobject' hreceived =>
    obtain rfl : t = s := Option.some.inj (hobject.symm.trans hs)
    have hnot : ∀ c, BrokerCall.consume i ≠ .deliver (P := P) c i := fun c heq => by cases heq
    refine ⟨?_, _, hobject', ?_⟩
    · rw [hreceived, List.length_append]
      exact Nat.le_add_right_of_le hgiven
    · rcases hstate with hclosed | hwaiting | hcarried
      · exact .inl hclosed
      · exact .inr (.inl (hahead hnot hwaiting))
      · refine .inr (.inr fun key hkey => ?_)
        have hmoved : (b'.received i).drop given ++ events =
            (b.received i).drop given ++ t.events := by
          rw [hreceived, List.drop_append_of_le_length hgiven, hevents, List.append_assoc,
            List.singleton_append]
        show ∃ e ∈ (b'.received i).drop given ++ events, _
        rw [hmoved]
        exact hcarried key hkey
  | leave t hobject hobject' hreceived hnot =>
    obtain rfl : t = s := Option.some.inj (hobject.symm.trans hs)
    refine ⟨hreceived ▸ hgiven, _, hobject', ?_⟩
    rw [hreceived]
    exact hstate.imp_right (Or.imp_left (hahead hnot))
  | shut t hobject hobject' hreceived hnot =>
    exact ⟨hreceived ▸ hgiven, _, hobject', .inl rfl⟩

/-- A publication on a topic of an enrolled subscription reaches it. -/
theorem reaches_of_publish {event : LiveEvent P} {call : Nat} {topic : String}
    (h : Sound maxQueueSize i o) (hstep : step blake2b o (.publish call topic event) = some o')
    {s : Subscriber P} (hs : o.broker.objects i = some s) (hstays : s.left = false)
    (htopic : topic ∈ s.topics) : Reaches event call i (o.broker.received i).length o'.broker := by
  have hcall := (step_eq_some hstep).1
  have hopen : o.broker.closed = false := by
    cases hclosed : o.broker.closed with
    | false => rfl
    | true => simp [callStep, hclosed] at hcall
  obtain ⟨hobject, hreceived, hpublication⟩ : o'.broker.objects i = some s ∧
      o'.broker.received i = o.broker.received i ∧
        o'.broker.publications call = some ⟨event, o.broker.listens topic⟩ := by
    simp only [callStep] at hcall
    split at hcall
    · cases hcall
    · rw [← Option.some.inj hcall]
      exact ⟨hs, rfl, Function.update_self ..⟩
  refine ⟨hreceived ▸ le_rfl, s, hobject, .inr ?_⟩
  rcases h.enrolled s hs with hleft | hclosed | hregistered
  · rw [hstays] at hleft
    cases hleft
  · rw [hopen] at hclosed
    cases hclosed
  · refine .inl ⟨_, hpublication, rfl, ?_⟩
    simp [listens, hregistered, hs, htopic]

/-! ## A closed subscription -/

/-- A closed subscription stays closed and empty and is given nothing more. -/
theorem closed_step {b b' : MemoryLiveBroker P} {s : Subscriber P}
    (hs : b.objects i = some s) (hclosed : s.closed = true) (hempty : s.events = [])
    (hcall : callStep blake2b b a = some b') :
    (∃ s', b'.objects i = some s' ∧ s'.closed = true ∧ s'.events = []) ∧
      b'.received i = b.received i := by
  cases moves_of_callStep i hcall with
  | other hobject hreceived _ => exact ⟨⟨s, hobject.trans hs, hclosed, hempty⟩, hreceived⟩
  | enter _ hnone => rw [hnone] at hs; cases hs
  | offer _ _ t _ _ hobject hobject' hreceived =>
    obtain rfl : t = s := Option.some.inj (hobject.symm.trans hs)
    rw [Subscriber.offer_closed hclosed] at hobject'
    exact ⟨⟨t, hobject', hclosed, hempty⟩, hreceived⟩
  | take t _ _ hobject hopen =>
    obtain rfl : t = s := Option.some.inj (hobject.symm.trans hs)
    rw [hclosed] at hopen
    cases hopen
  | leave t hobject hobject' hreceived _ =>
    obtain rfl : t = s := Option.some.inj (hobject.symm.trans hs)
    exact ⟨⟨_, hobject', hclosed, hempty⟩, hreceived⟩
  | shut t hobject hobject' hreceived _ => exact ⟨⟨_, hobject', rfl, rfl⟩, hreceived⟩

theorem closed_run {s : Subscriber P} (hs : o.broker.objects i = some s) (hclosed : s.closed = true)
    (hempty : s.events = []) (hrun : Run (step blake2b) Always o o') :
    (∃ s', o'.broker.objects i = some s' ∧ s'.closed = true ∧ s'.events = []) ∧
      o'.broker.received i = o.broker.received i :=
  hrun.invariant
    (I := fun o' => (∃ s', o'.broker.objects i = some s' ∧ s'.closed = true ∧ s'.events = []) ∧
      o'.broker.received i = o.broker.received i)
    (fun _ _ _ ⟨⟨_, hs, hclosed, hempty⟩, hreceived⟩ _ hstep => by
      obtain ⟨hobject, hsame⟩ := closed_step hs hclosed hempty (step_eq_some hstep).1
      exact ⟨hobject, hsame.trans hreceived⟩)
    ⟨⟨s, hs, hclosed, hempty⟩, rfl⟩

end Steps

/-- In every run of a new broker, for every subscription: its queue keeps to the bound; each key of
an event published on one of its topics while it was subscribed was given to it since or waits in its
queue, in the event or in a resync, unless the visit is still to come or the subscription is closed;
an overflow ends it exactly when the gathered keys do not fit one event; no call offers it twice,
calls that do not overlap offer in their order, and without an overflow it is given exactly what was
offered, in that order; and once closed its queue is empty and it is given nothing more. -/
theorem every_key_arrives {blake2b : List UInt8 → String} {maxQueueSize : Int}
    {b₀ : MemoryLiveBroker P} (hnew : create maxQueueSize = some b₀) {o : Observed P}
    (hrun : Run (step blake2b) Always { broker := b₀ } o) (i : Nat) :
    (∀ s, o.broker.objects i = some s → s.events.length ≤ maxQueueSize) ∧
    (∀ o₁ o₂ call topic event s₁, Run (step blake2b) Always { broker := b₀ } o₁ →
      step blake2b o₁ (.publish call topic event) = some o₂ → Run (step blake2b) Always o₂ o →
      o₁.broker.objects i = some s₁ → s₁.left = false → topic ∈ s₁.topics →
        ∃ s, o.broker.objects i = some s ∧ (s.closed = true ∨
          (∃ p, o.broker.publications call = some p ∧ p.targets i = true) ∨
          ∀ key ∈ eventKeys event,
            ∃ e ∈ (o.broker.received i).drop (o₁.broker.received i).length ++ s.events,
              key ∈ eventKeys e ∧ (e = event ∨ ∃ keys reason, e = .resync keys reason))) ∧
    (∀ o' call p s s', o.broker.publications call = some p → o.broker.objects i = some s →
      s.closed = false → step blake2b o (.deliver call i) = some o' →
      o'.broker.objects i = some s' →
        (s'.closed = true ↔ maxQueueSize ≤ s.events.length ∧
          maxLiveEventKeys < (eventKeys p.event ++ s.events.flatMap eventKeys).toFinset.card)) ∧
    ((o.offered i).Nodup ∧
      (∀ o₁ first second, Run (step blake2b) Always { broker := b₀ } o₁ →
        Run (step blake2b) Always o₁ o → o₁.Returned first →
        o₁.broker.publications second = none → first ∈ o.offered i → second ∈ o.offered i →
          [first, second].Sublist (o.offered i)) ∧
      (o.overflowed i = false → ∀ s, o.broker.objects i = some s →
        (o.broker.received i).map some <+: (o.offered i).map o.eventOf ∧
          (s.closed = false →
            (o.broker.received i ++ s.events).map some = (o.offered i).map o.eventOf))) ∧
    (∀ s, o.broker.objects i = some s → s.closed = true → s.events = [] ∧
      ∀ o', Run (step blake2b) Always o o' → o'.broker.received i = o.broker.received i ∧
        ∃ s', o'.broker.objects i = some s' ∧ s'.closed = true ∧ s'.events = []) := by
  -- the constructor refuses a size below one, so the bound is a positive number
  obtain ⟨hmax, rfl⟩ : 1 ≤ maxQueueSize.toNat ∧ b₀ = { maxQueueSize := maxQueueSize.toNat } := by
    unfold create at hnew
    split at hnew
    · cases hnew
    · exact ⟨by omega, (Option.some.inj hnew).symm⟩
  have hsize : (maxQueueSize.toNat : Int) = maxQueueSize := Int.toNat_of_nonneg (by omega)
  have hsound := sound_run hmax i hrun
  refine ⟨fun s hs => ?_, ?_, ?_, ⟨hsound.nodup, ?_, ?_⟩, fun s hs hclosed => ?_⟩
  · have hbounded := hsound.bounded s hs
    omega
  -- What the publication owes the subscriber is kept by every step after it.
  · intro o₁ o₂ call topic event s₁ hrun₁ hstep hrun₂ hs₁ hstays htopic
    have hstart := reaches_of_publish (sound_run hmax i hrun₁) hstep hs₁ hstays htopic
    obtain ⟨-, s, hs, hstate⟩ := hrun₂.invariant
      (I := fun o => Reaches event call i (o₁.broker.received i).length o.broker)
      (fun _ _ _ hreach _ hstep => reaches_step hreach (step_eq_some hstep).1) hstart
    refine ⟨s, hs, ?_⟩
    -- closed, still to be visited, or carried by what it has received or holds
    rcases hstate with hclosed | ⟨p, hp, -, hahead⟩ | hcarried
    · exact .inl hclosed
    · exact .inr (.inl ⟨p, hp, hahead⟩)
    · refine .inr (.inr fun key hkey => ?_)
      obtain ⟨e, he, hmem, hshape⟩ := hcarried key hkey
      refine ⟨e, he, hmem, hshape.imp_right fun hresync => ?_⟩
      cases e with
      | resync keys reason => exact ⟨keys, reason, rfl⟩
      | ready | invalidate | patch => cases hresync
  -- closing happens in an offer that finds the queue full and too many keys for one resync
  · intro o' call p s s' hp hs hopen hstep hs'
    cases moves_of_callStep i (step_eq_some hstep).1 with
    | other _ _ hnot | leave _ _ _ _ hnot | shut _ _ _ _ hnot => exact absurd rfl (hnot call)
    | offer _ p' t hp' _ ht ht' =>
      obtain rfl := Option.some.inj (hp.symm.trans hp')
      obtain rfl := Option.some.inj (hs.symm.trans ht)
      obtain rfl := Option.some.inj (hs'.symm.trans ht')
      rw [Subscriber.closed_offer_iff hopen, hsound.size, Subscriber.full, decide_eq_true_iff,
        Subscriber.length_gathered]
      refine and_congr_left fun _ => ?_
      omega
  -- a call that had returned was offered before the later one was begun
  · intro o₁ first second hrun₁ hrun₂ hreturned hunknown hfirst hsecond
    have hsound₁ := sound_run hmax i hrun₁
    obtain ⟨rest, hrest, hnot⟩ := offered_after_return (i := i) hreturned hrun₂
    rw [hrest] at hfirst hsecond ⊢
    have hearly : first ∈ o₁.offered i := (List.mem_append.mp hfirst).resolve_right hnot
    have hlate : second ∈ rest := by
      refine (List.mem_append.mp hsecond).resolve_left fun hmem => ?_
      obtain ⟨p, hp, -⟩ := hsound₁.visited second hmem
      rw [hunknown] at hp
      cases hp
    exact (List.singleton_sublist.mpr hearly).append (List.singleton_sublist.mpr hlate)
  · intro hno s hs
    obtain ⟨hbefore, hwhole⟩ := hsound.inOrder hno s hs
    rw [List.map_append] at hbefore
    exact ⟨(List.prefix_append _ _).trans hbefore, hwhole⟩
  -- a closed subscriber is empty and stays so
  · have hempty := hsound.drained s hs hclosed
    refine ⟨hempty, fun o' hrun' => ?_⟩
    obtain ⟨hobject, hreceived⟩ := closed_run hs hclosed hempty hrun'
    exact ⟨hreceived, hobject⟩

/-- Two invalidations for a queue of one event. -/
def twoInvalidations : List (BrokerCall Nat) :=
  [.subscribe 0 ["rooms"], .publish 0 "rooms" (.invalidate ["a"] none), .deliver 0 0,
    .publish 1 "rooms" (.invalidate ["b"] none), .deliver 1 0]

/-- The second invalidation finds the queue full, which still holds one event. -/
theorem every_key_arrives_full :
    ∃ o, exec (step fun _ => "") { broker := { maxQueueSize := 1 } } twoInvalidations = some o ∧
      o.overflowed 0 = true ∧ (∀ s, o.broker.objects 0 = some s → (s.events.length : Int) ≤ 1) ∧
        (o.offered 0).Nodup := by
  obtain ⟨o, ho⟩ := Option.isSome_iff_exists.mp
    (show (exec (step fun _ => "") { broker := { maxQueueSize := 1 } } twoInvalidations).isSome =
      true by decide)
  have hfull : ((exec (step fun _ => "") { broker := { maxQueueSize := 1 } }
      twoInvalidations).map fun o => o.overflowed 0) = some true := by decide
  rw [ho] at hfull
  have hkept := every_key_arrives (show create 1 = some { maxQueueSize := 1 } from rfl)
    (Run.of_exec ho) 0
  exact ⟨o, ho, Option.some.inj hfull, hkept.1, hkept.2.2.2.1.1⟩

end Observed

end FluxFast.Server

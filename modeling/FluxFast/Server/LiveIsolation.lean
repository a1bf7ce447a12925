import FluxFast.Server.LiveBroker

/-!
# LiveIsolation — a subscriber sees its own publications only

The mailbox of a subscriber is all of the broker that its events depend on.  Publications about
other resources, and whatever other subscribers do, leave it as it is; so the events that a
subscriber receives are computed from the publications that its page declares and from its own
reads.
-/

namespace FluxFast.Server

open FluxFast.Theory
open FluxFast.Core (LiveEvent)

/-! ## What a subscription is for -/

theorem mapM_eq_ok {ε α β : Type} {f : α → Except ε β} {as : List α} {bs : List β}
    (h : as.mapM f = .ok bs) :
    (∀ a ∈ as, ∃ b ∈ bs, f a = .ok b) ∧ ∀ b ∈ bs, ∃ a ∈ as, f a = .ok b := by
  -- Induction on the list; an error anywhere makes the whole result an error.
  induction as generalizing bs with
  | nil =>
    simp only [List.mapM_nil, pure, Except.pure, Except.ok.injEq] at h
    subst h
    simp
  | cons a as ih =>
    rw [List.mapM_cons] at h
    cases hhead : f a with
    | error message => simp [hhead, bind, Except.bind] at h
    | ok b =>
      cases htail : as.mapM f with
      | error message => simp [hhead, htail, bind, Except.bind] at h
      | ok rest =>
        simp only [hhead, htail, bind, Except.bind, pure, Except.pure, Except.ok.injEq] at h
        subst h
        obtain ⟨hforth, hback⟩ := ih htail
        refine ⟨fun x hx => ?_, fun y hy => ?_⟩
        · rcases List.mem_cons.mp hx with rfl | hx
          · exact ⟨b, by simp, hhead⟩
          · obtain ⟨y, hy, hxy⟩ := hforth x hx
            exact ⟨y, List.mem_cons_of_mem _ hy, hxy⟩
        · rcases List.mem_cons.mp hy with rfl | hy
          · exact ⟨a, by simp, hhead⟩
          · obtain ⟨x, hx, hxy⟩ := hback y hy
            exact ⟨x, List.mem_cons_of_mem _ hx, hxy⟩

/-- The page declares the key live, in the scope, and it was requested. -/
def Declares (page : Page) (requestedKeys : Finset String) (scope : CacheScope) (key : String) :
    Bool :=
  page.resources.any fun spec =>
    spec.live && decide (spec.key ∈ requestedKeys) && decide (spec.key = key) &&
      decide (spec.scope.identity = scope.identity)

section Resolution

variable {blake2b : List UInt8 → String} {page : Page} {requestedKeys : Finset String}
variable {subscription : LiveSubscription}

theorem resolveSubscription_eq_ok
    (h : resolveSubscription blake2b page requestedKeys = .ok subscription) :
    ∃ authorized : List (String × String),
      (page.resources.filter fun spec => spec.live && decide (spec.key ∈ requestedKeys)).mapM
          (fun spec => (deriveLiveTopic blake2b spec.scope spec.key).map
            fun topic => (spec.key, topic)) = .ok authorized ∧
        subscription = ⟨sorted (authorized.map Prod.fst), authorized.map Prod.snd⟩ := by
  unfold resolveSubscription at h
  by_cases hmany : maxLiveEventKeys < requestedKeys.card
  · simp [hmany, bind, Except.bind, throw, throwThe, MonadExceptOf.throw] at h
  · by_cases hunsafe : ∃ key ∈ requestedKeys, safeResourceKey key = false
    · simp only [hmany, hunsafe, if_false, if_true, bind, Except.bind, throw, throwThe,
        MonadExceptOf.throw, pure, Except.pure] at h
      cases h
    · simp only [hmany, hunsafe, if_false, bind, Except.bind, pure, Except.pure] at h
      split at h
      · cases h
      · next authorized hauthorized =>
        cases h
        exact ⟨authorized, hauthorized, rfl⟩

theorem mem_specs {spec : ResourceSpec} :
    spec ∈ page.resources.filter (fun spec => spec.live && decide (spec.key ∈ requestedKeys)) ↔
      spec ∈ page.resources ∧ spec.live = true ∧ spec.key ∈ requestedKeys := by
  simp [List.mem_filter]

/-- The topics of a subscription are those of the declared resources. -/
theorem mem_topics_iff (hblake : Function.Injective blake2b)
    (h : resolveSubscription blake2b page requestedKeys = .ok subscription) {scope : CacheScope}
    {key topic : String} (htopic : deriveLiveTopic blake2b scope key = .ok topic) :
    topic ∈ subscription.topics ↔ Declares page requestedKeys scope key = true := by
  obtain ⟨authorized, hmap, rfl⟩ := resolveSubscription_eq_ok h
  obtain ⟨hforth, hback⟩ := mapM_eq_ok hmap
  have hderived : ∀ {spec : ResourceSpec} {e : String × String},
      (deriveLiveTopic blake2b spec.scope spec.key).map (fun topic => (spec.key, topic)) = .ok e →
        deriveLiveTopic blake2b spec.scope spec.key = .ok e.2 := by
    intro spec e he
    cases hspec : deriveLiveTopic blake2b spec.scope spec.key with
    | error message => simp [hspec, Except.map] at he
    | ok topic =>
      simp only [hspec, Except.map, Except.ok.injEq] at he
      rw [← he]
  unfold Declares
  rw [List.any_eq_true]
  constructor
  -- a topic of the subscription comes from a declared live resource, and topics are injective
  · intro hmem
    obtain ⟨e, he, rfl⟩ := List.mem_map.mp hmem
    obtain ⟨spec, hspec, hok⟩ := hback e he
    obtain ⟨hpage, hlive, hrequested⟩ := mem_specs.mp hspec
    obtain ⟨hscope, hkey⟩ := deriveLiveTopic_inj hblake (hderived hok) htopic
    refine ⟨spec, hpage, ?_⟩
    simpa [hlive, hkey, hscope] using hkey ▸ hrequested
  -- and a declared resource's topic is among them, since it depends on scope and key alone
  · rintro ⟨spec, hpage, hdeclared⟩
    simp only [Bool.and_eq_true, decide_eq_true_eq] at hdeclared
    obtain ⟨⟨⟨hlive, hrequested⟩, hkey⟩, hscope⟩ := hdeclared
    obtain ⟨e, he, hok⟩ := hforth spec (mem_specs.mpr ⟨hpage, hlive, hrequested⟩)
    refine List.mem_map.mpr ⟨e, he, ?_⟩
    obtain ⟨hreusable, -, identity, hidentity, hdigest⟩ := deriveLiveTopic_eq_ok htopic
    obtain ⟨hreusable', -, identity', hidentity', hdigest'⟩ := deriveLiveTopic_eq_ok (hderived hok)
    rw [hdigest, hdigest', getCacheKey_eq_print hidentity, getCacheKey_eq_print hidentity', hscope,
      hkey]

theorem mem_keys_of_declares
    (h : resolveSubscription blake2b page requestedKeys = .ok subscription) {scope : CacheScope}
    {key : String} (hdeclared : Declares page requestedKeys scope key = true) :
    key ∈ subscription.keys := by
  obtain ⟨authorized, hmap, rfl⟩ := resolveSubscription_eq_ok h
  obtain ⟨spec, hpage, hspec⟩ := List.any_eq_true.mp hdeclared
  simp only [Bool.and_eq_true, decide_eq_true_eq] at hspec
  obtain ⟨⟨⟨hlive, hrequested⟩, hkey⟩, -⟩ := hspec
  obtain ⟨e, he, hok⟩ := (mapM_eq_ok hmap).1 spec (mem_specs.mpr ⟨hpage, hlive, hrequested⟩)
  refine mem_sorted.mpr (List.mem_map.mpr ⟨e, he, ?_⟩)
  cases hspec : deriveLiveTopic blake2b spec.scope spec.key with
  | error message => simp [hspec, Except.map] at hok
  | ok topic =>
    simp only [hspec, Except.map, Except.ok.injEq] at hok
    rw [← hok]
    exact hkey

end Resolution

/-! ## The mailbox of one subscriber -/

section Mailboxes

variable {P : Type}

@[ext] structure Mailbox (P : Type) where
  object : Option (Subscriber P)
  registered : Bool
  closing : Bool
  brokerClosed : Bool
  /-- The events of the publications that have still to visit the subscriber. -/
  pending : Nat → Option (LiveEvent P)
  received : List (LiveEvent P)

namespace MemoryLiveBroker

def mailbox (i : Nat) (b : MemoryLiveBroker P) : Mailbox P where
  object := b.objects i
  registered := b.registered i
  closing := b.closing i
  brokerClosed := b.closed
  pending call := (b.publications call).bind fun publication =>
    if publication.targets i then some publication.event else none
  received := b.received i

end MemoryLiveBroker

/-- Which actions the subscriber `i` of the page can notice: declared publications, its own steps
and the end of the broker. -/
def Noticed (page : Page) (requestedKeys : Finset String) (i : Nat) : BrokerAction P → Bool
  | .publish _ scope key _ => Declares page requestedKeys scope key
  | .deliver _ subscriber => subscriber = i
  | .subscribe subscriber _ _ => subscriber = i
  | .consume subscriber => subscriber = i
  | .discard subscriber => subscriber = i
  | .finish subscriber => subscriber = i
  | .close => true
  | .closeSubscriber subscriber => subscriber = i

namespace Mailbox

/-- The broker as its one subscriber with these topics sees it. -/
def step (maxQueueSize : Nat) (topics : List String) (m : Mailbox P) : BrokerAction P → Mailbox P
  -- what one subscriber sees of a call: the event, if the publication listed it
  | .publish call _ key content =>
    { m with
      pending := Function.update m.pending call
        (if m.registered then some (content.event key) else none) }
  | .deliver call _ =>
    { m with
      object := m.object.map fun s =>
        -- an offer of a publication that did not list it changes nothing
        match m.pending call with
        | some event => s.offer maxQueueSize event
        | none => s
      pending := Function.update m.pending call none }
  | .subscribe _ _ _ => { m with object := some { topics := topics }, registered := true }
  | .consume _ =>
    match m.object with
    | none => m
    | some s =>
      -- a closed queue ends the stream
      if s.closed then { m with object := some { s with left := true } }
      else
        match s.events with
        | [] => m
        | event :: events =>
          { m with
            object := some { s with events := events }
            received := m.received ++ [event] }
  | .discard _ =>
    { m with object := m.object.map fun s => { s with left := true }, registered := false }
  | .finish _ => { m with object := m.object.map fun s => { s with events := [], closed := true } }
  | .close =>
    if m.brokerClosed then m
    else { m with brokerClosed := true, registered := false, closing := m.registered }
  | .closeSubscriber _ =>
    { m with
      object := m.object.map fun s => { s with events := [], closed := true }
      closing := false }

end Mailbox

/-- The subscriber `i` listens to these topics, once it has subscribed. -/
structure Tuned (topics : List String) (i maxQueueSize : Nat) (b : MemoryLiveBroker P) : Prop where
  size : b.maxQueueSize = maxQueueSize
  topics : ∀ s, b.objects i = some s → s.topics = topics
  present : b.registered i = true → (b.objects i).isSome = true

namespace MemoryLiveBroker

theorem topics_offer (maxQueueSize : Nat) (s : Subscriber P) (event : LiveEvent P) :
    (s.offer maxQueueSize event).topics = s.topics := by
  unfold Subscriber.offer
  split
  · rfl
  · split
    · rfl
    · dsimp only
      split <;> rfl

section Steps

variable {topics : List String} {i j maxQueueSize : Nat} {b : MemoryLiveBroker P}

theorem objects_putObject_of_ne {s : Subscriber P} (h : j ≠ i) :
    (b.putObject j s).objects i = b.objects i :=
  Function.update_of_ne (Ne.symm h) _ _

theorem objects_putObject_self {s : Subscriber P} : (b.putObject i s).objects i = some s :=
  Function.update_self _ _ _

/-- A new state of an object keeps the topics; another object is left alone. -/
theorem tuned_putObject (h : Tuned topics i maxQueueSize b) {s : Subscriber P}
    (hs : j = i → s.topics = topics) : Tuned topics i maxQueueSize (b.putObject j s) where
  size := h.size
  topics s' hs' := by
    by_cases hj : j = i
    · subst hj
      rw [objects_putObject_self] at hs'
      cases hs'
      exact hs rfl
    · rw [objects_putObject_of_ne hj] at hs'
      exact h.topics s' hs'
  present hregistered := by
    by_cases hj : j = i
    · subst hj
      rw [objects_putObject_self]
      rfl
    · rw [objects_putObject_of_ne hj]
      exact h.present hregistered

/-- The mailbox after another state of the subscriber's object. -/
theorem mailbox_putObject_self (s : Subscriber P) :
    mailbox i (b.putObject i s) = { mailbox i b with object := some s } := by
  unfold mailbox
  rw [objects_putObject_self]
  rfl

theorem mailbox_putObject_of_ne (s : Subscriber P) (h : j ≠ i) :
    mailbox i (b.putObject j s) = mailbox i b := by
  unfold mailbox
  rw [objects_putObject_of_ne h]
  rfl

variable {blake2b : List UInt8 → String} {b' : MemoryLiveBroker P}

theorem mailbox_publish (hblake : Function.Injective blake2b) {page : Page}
    {requestedKeys : Finset String} {subscription : LiveSubscription}
    (hsub : resolveSubscription blake2b page requestedKeys = .ok subscription)
    (h : Tuned subscription.topics i maxQueueSize b) {call : Nat} {scope : CacheScope}
    {key : String} {content : Content P}
    (hstep : step blake2b b (.publish call scope key content) = some b') :
    Tuned subscription.topics i maxQueueSize b' ∧
      mailbox i b' = if Declares page requestedKeys scope key then
        (mailbox i b).step maxQueueSize subscription.topics (.publish call scope key content)
      else mailbox i b := by
  unfold step at hstep
  cases htopic : deriveLiveTopic blake2b scope key with
  | error message => simp [htopic] at hstep
  | ok topic =>
    simp only [htopic] at hstep
    split at hstep
    · cases hstep
    · next hfree =>
      cases hstep
      refine ⟨⟨h.size, h.topics, h.present⟩, ?_⟩
      have hnone : b.publications call = none := by
        cases hcall : b.publications call with
        | none => rfl
        | some publication => simp [hcall] at hfree
      -- the snapshot has the subscriber exactly where the page declares the resource
      have hlistens : b.listens topic i =
          (b.registered i && Declares page requestedKeys scope key) := by
        unfold listens
        cases hregistered : b.registered i with
        | false => rfl
        | true =>
          obtain ⟨s, hs⟩ := Option.isSome_iff_exists.mp (h.present hregistered)
          rw [hs, Option.any_some, h.topics s hs, Bool.true_and, Bool.true_and, Bool.eq_iff_iff,
            List.contains_iff_mem]
          exact mem_topics_iff hblake hsub htopic
      have hpending : ∀ call', ((Function.update b.publications call
          (some ⟨content.event key, b.listens topic⟩)) call').bind (fun publication =>
            if publication.targets i then some publication.event else none) =
          Function.update (mailbox i b).pending call
            (if b.listens topic i then some (content.event key) else none) call' := by
        intro call'
        by_cases hcall : call' = call
        · subst hcall
          rw [Function.update_self, Function.update_self]
          rfl
        · rw [Function.update_of_ne hcall, Function.update_of_ne hcall]
          rfl
      cases hdeclared : Declares page requestedKeys scope key with
      | true =>
        rw [hdeclared, Bool.and_true] at hlistens
        rw [if_pos rfl]
        refine Mailbox.ext rfl rfl rfl rfl (funext fun call' => (hpending call').trans ?_) rfl
        rw [hlistens]
        rfl
      | false =>
        rw [hdeclared, Bool.and_false] at hlistens
        rw [if_neg (by decide)]
        refine Mailbox.ext rfl rfl rfl rfl (funext fun call' => (hpending call').trans ?_) rfl
        rw [hlistens, if_neg (by decide)]
        by_cases hcall : call' = call
        · subst hcall
          rw [Function.update_self]
          show none = (b.publications call').bind _
          rw [hnone]
          rfl
        · rw [Function.update_of_ne hcall]

theorem mailbox_deliver (h : Tuned topics i maxQueueSize b) {call : Nat}
    (hstep : step blake2b b (.deliver call j) = some b') :
    Tuned topics i maxQueueSize b' ∧
      mailbox i b' = if j = i then (mailbox i b).step maxQueueSize topics (.deliver call j)
        else mailbox i b := by
  unfold step at hstep
  cases hcall : b.publications call with
  -- A delivery that is refused does not happen, so only one branch is left.
  | none => simp [hcall] at hstep
  | some publication =>
    cases hobject : b.objects j with
    | none => simp [hcall, hobject] at hstep
    | some s =>
      simp only [hcall, hobject] at hstep
      split at hstep
      · next htarget =>
        cases hstep
        have htuned : Tuned topics i maxQueueSize
            (b.putObject j (s.offer b.maxQueueSize publication.event)) :=
          tuned_putObject h fun hj => by
            rw [topics_offer]
            exact h.topics s (hj ▸ hobject)
        refine ⟨⟨htuned.size, htuned.topics, htuned.present⟩, ?_⟩
        -- to this subscriber: its queue, and its place among the targets
        by_cases hj : j = i
        · subst hj
          rw [if_pos rfl]
          refine Mailbox.ext ?_ rfl rfl rfl (funext fun call' => ?_) rfl
          · show (b.putObject j _).objects j = (b.objects j).map _
            rw [objects_putObject_self, hobject]
            simp [mailbox, hcall, htarget, h.size]
          · show ((Function.update b.publications call _) call').bind _ =
              Function.update (mailbox j b).pending call none call'
            by_cases hcall' : call' = call
            · subst hcall'
              simp
            · rw [Function.update_of_ne hcall', Function.update_of_ne hcall']
              rfl
        -- to another one: neither queue nor target of this one moves
        · rw [if_neg hj]
          refine Mailbox.ext (objects_putObject_of_ne hj) rfl rfl rfl (funext fun call' => ?_) rfl
          show ((Function.update b.publications call _) call').bind _ = (b.publications call').bind _
          by_cases hcall' : call' = call
          · subst hcall'
            rw [Function.update_self, hcall]
            simp [Function.update_of_ne (Ne.symm hj)]
          · rw [Function.update_of_ne hcall']
      · cases hstep

theorem mailbox_subscribe {page : Page} {requestedKeys : Finset String}
    {subscription : LiveSubscription}
    (hsub : j = i → resolveSubscription blake2b page requestedKeys = .ok subscription)
    (h : Tuned subscription.topics i maxQueueSize b)
    (hstep : step blake2b b (.subscribe j page requestedKeys) = some b') :
    Tuned subscription.topics i maxQueueSize b' ∧
      mailbox i b' = if j = i then
        (mailbox i b).step maxQueueSize subscription.topics (.subscribe j page requestedKeys)
      else mailbox i b := by
  unfold step at hstep
  cases hresolved : resolveSubscription blake2b page requestedKeys with
  | error message => simp [hresolved] at hstep
  | ok resolved =>
    simp only [hresolved] at hstep
    split at hstep
    · cases hstep
    · cases hstep
      -- the topics that it subscribes with are those of its own page
      have htopics : j = i → resolved.topics = subscription.topics := by
        intro hj
        have hsame := (hsub hj).symm.trans hresolved
        cases hsame
        rfl
      have htuned := tuned_putObject (s := { topics := resolved.topics }) h htopics
      refine ⟨⟨htuned.size, htuned.topics, fun hregistered => ?_⟩, ?_⟩
      · by_cases hj : j = i
        · subst hj
          show ((b.putObject j _).objects j).isSome = true
          rw [objects_putObject_self]
          rfl
        · refine htuned.present ?_
          have hregistered : Function.update b.registered j true i = true := hregistered
          rwa [Function.update_of_ne (Ne.symm hj)] at hregistered
      -- entering registers exactly the subscriber that enters
      · by_cases hj : j = i
        · subst hj
          rw [if_pos rfl]
          refine Mailbox.ext ?_ (Function.update_self _ _ _) rfl rfl rfl rfl
          show (b.putObject j _).objects j = _
          rw [objects_putObject_self, htopics rfl]
          rfl
        · rw [if_neg hj]
          exact Mailbox.ext (objects_putObject_of_ne hj)
            (Function.update_of_ne (Ne.symm hj) _ _) rfl rfl rfl rfl

theorem mailbox_consume (h : Tuned topics i maxQueueSize b)
    (hstep : step blake2b b (.consume j) = some b') :
    Tuned topics i maxQueueSize b' ∧
      mailbox i b' = if j = i then (mailbox i b).step maxQueueSize topics (.consume j)
        else mailbox i b := by
  unfold step at hstep
  cases hobject : b.objects j with
  | none => simp [hobject] at hstep
  | some s =>
    simp only [hobject] at hstep
    have htopics : j = i → s.topics = topics := fun hj => h.topics s (hj ▸ hobject)
    -- one that has left does not consume any more
    split at hstep
    · cases hstep
    · split at hstep
      · next hclosed =>
        cases hstep
        refine ⟨tuned_putObject h htopics, ?_⟩
        by_cases hj : j = i
        · subst hj
          rw [if_pos rfl, mailbox_putObject_self]
          simp [Mailbox.step, mailbox, hobject, hclosed]
        · rw [if_neg hj, mailbox_putObject_of_ne _ hj]
      -- an event is taken off the queue and counts as received
      · next hopen =>
        split at hstep
        · cases hstep
        · next event events hevents =>
          cases hstep
          have htuned := tuned_putObject (s := { s with events := events }) h htopics
          refine ⟨⟨htuned.size, htuned.topics, htuned.present⟩, ?_⟩
          by_cases hj : j = i
          · subst hj
            rw [if_pos rfl]
            refine Mailbox.ext ?_ ?_ ?_ ?_ ?_ ?_
            · show (b.putObject j _).objects j = _
              rw [objects_putObject_self]
              simp [Mailbox.step, mailbox, hobject, hopen, hevents]
            · simp [Mailbox.step, mailbox, hobject, hopen, hevents, putObject]
            · simp [Mailbox.step, mailbox, hobject, hopen, hevents, putObject]
            · simp [Mailbox.step, mailbox, hobject, hopen, hevents, putObject]
            · simp [Mailbox.step, mailbox, hobject, hopen, hevents, putObject]
            · show Function.update b.received j _ j = _
              rw [Function.update_self]
              simp [Mailbox.step, mailbox, hobject, hopen, hevents]
          · rw [if_neg hj]
            exact Mailbox.ext (objects_putObject_of_ne hj) rfl rfl rfl rfl
              (Function.update_of_ne (Ne.symm hj) _ _)

theorem mailbox_discard (h : Tuned topics i maxQueueSize b)
    (hstep : step blake2b b (.discard j) = some b') :
    Tuned topics i maxQueueSize b' ∧
      mailbox i b' = if j = i then (mailbox i b).step maxQueueSize topics (.discard j)
        else mailbox i b := by
  unfold step at hstep
  cases hobject : b.objects j with
  | none => simp [hobject] at hstep
  | some s =>
    simp only [hobject, Option.some.injEq] at hstep
    subst hstep
    have htuned := tuned_putObject (s := { s with left := true }) h
      fun hj => h.topics s (hj ▸ hobject)
    by_cases hj : j = i
    · subst hj
      -- leaving strikes this subscriber off the table
      refine ⟨⟨htuned.size, htuned.topics, fun hregistered => ?_⟩, ?_⟩
      · have hregistered : Function.update b.registered j false j = true := hregistered
        rw [Function.update_self] at hregistered
        cases hregistered
      · rw [if_pos rfl]
        refine Mailbox.ext ?_ (Function.update_self _ _ _) rfl rfl rfl rfl
        show (b.putObject j _).objects j = (b.objects j).map _
        rw [objects_putObject_self, hobject]
        rfl
    -- another one's leaving keeps this one registered
    · refine ⟨⟨htuned.size, htuned.topics, fun hregistered => ?_⟩, ?_⟩
      · refine htuned.present ?_
        have hregistered : Function.update b.registered j false i = true := hregistered
        rwa [Function.update_of_ne (Ne.symm hj)] at hregistered
      · rw [if_neg hj]
        exact Mailbox.ext (objects_putObject_of_ne hj) (Function.update_of_ne (Ne.symm hj) _ _)
          rfl rfl rfl rfl

theorem mailbox_finish (h : Tuned topics i maxQueueSize b)
    (hstep : step blake2b b (.finish j) = some b') :
    Tuned topics i maxQueueSize b' ∧
      mailbox i b' = if j = i then (mailbox i b).step maxQueueSize topics (.finish j)
        else mailbox i b := by
  unfold step at hstep
  cases hobject : b.objects j with
  | none => simp [hobject] at hstep
  | some s =>
    simp only [hobject] at hstep
    split at hstep
    · cases hstep
      refine ⟨tuned_putObject h fun hj => h.topics s (hj ▸ hobject), ?_⟩
      by_cases hj : j = i
      · subst hj
        rw [if_pos rfl, mailbox_putObject_self]
        simp [Mailbox.step, mailbox, hobject]
      · rw [if_neg hj, mailbox_putObject_of_ne _ hj]
    · cases hstep

theorem mailbox_closeSubscriber (h : Tuned topics i maxQueueSize b)
    (hstep : step blake2b b (.closeSubscriber j) = some b') :
    Tuned topics i maxQueueSize b' ∧
      mailbox i b' = if j = i then (mailbox i b).step maxQueueSize topics (.closeSubscriber j)
        else mailbox i b := by
  unfold step at hstep
  cases hobject : b.objects j with
  | none => simp [hobject] at hstep
  | some s =>
    simp only [hobject] at hstep
    split at hstep
    · cases hstep
      have htuned := tuned_putObject (s := { s with events := [], closed := true }) h
        fun hj => h.topics s (hj ▸ hobject)
      refine ⟨⟨htuned.size, htuned.topics, htuned.present⟩, ?_⟩
      by_cases hj : j = i
      · subst hj
        rw [if_pos rfl]
        refine Mailbox.ext ?_ rfl (Function.update_self _ _ _) rfl rfl rfl
        show (b.putObject j _).objects j = (b.objects j).map _
        rw [objects_putObject_self, hobject]
        rfl
      · rw [if_neg hj]
        exact Mailbox.ext (objects_putObject_of_ne hj) rfl (Function.update_of_ne (Ne.symm hj) _ _)
          rfl rfl rfl
    · cases hstep

theorem mailbox_close (h : Tuned topics i maxQueueSize b)
    (hstep : step blake2b b .close = some b') :
    Tuned topics i maxQueueSize b' ∧
      mailbox i b' = (mailbox i b).step maxQueueSize topics .close := by
  have hstep : (if b.closed then some b else some { b with
      closed := true, registered := fun _ => false, closing := b.registered }) = some b' := hstep
  split at hstep
  · next hclosed =>
    cases hstep
    exact ⟨h, by simp [Mailbox.step, mailbox, hclosed]⟩
  · next hopen =>
    cases hstep
    refine ⟨⟨h.size, h.topics, fun hregistered => by cases hregistered⟩, ?_⟩
    simp [Mailbox.step, mailbox, hopen]

/-- Every step acts on the mailbox as on a broker with one subscriber, or not at all. -/
theorem mailbox_step (hblake : Function.Injective blake2b) {page : Page}
    {requestedKeys : Finset String} {subscription : LiveSubscription}
    (hsub : resolveSubscription blake2b page requestedKeys = .ok subscription)
    {a : BrokerAction P} (hown : ∀ p r, a = .subscribe i p r → p = page ∧ r = requestedKeys)
    (h : Tuned subscription.topics i maxQueueSize b) (hstep : step blake2b b a = some b') :
    Tuned subscription.topics i maxQueueSize b' ∧
      mailbox i b' = if Noticed page requestedKeys i a then
        (mailbox i b).step maxQueueSize subscription.topics a else mailbox i b := by
  cases a with
  | publish call scope key content => exact mailbox_publish hblake hsub h hstep
  | deliver call j => simpa [Noticed] using mailbox_deliver h hstep
  | subscribe j p r =>
    have hsame : j = i → resolveSubscription blake2b p r = .ok subscription := by
      rintro rfl
      obtain ⟨rfl, rfl⟩ := hown p r rfl
      exact hsub
    simpa [Noticed] using mailbox_subscribe hsame h hstep
  | consume j => simpa [Noticed] using mailbox_consume h hstep
  | discard j => simpa [Noticed] using mailbox_discard h hstep
  | finish j => simpa [Noticed] using mailbox_finish h hstep
  | close => simpa [Noticed] using mailbox_close h hstep
  | closeSubscriber j => simpa [Noticed] using mailbox_closeSubscriber h hstep

end Steps

end MemoryLiveBroker

/-! ## Authorised keys -/

/-- Everything in the mailbox names these keys only. -/
structure Mailbox.Confined (keys : List String) (m : Mailbox P) : Prop where
  queued : ∀ s, m.object = some s → ∀ event ∈ s.events, ∀ key ∈ eventKeys event, key ∈ keys
  pending : ∀ call event, m.pending call = some event → ∀ key ∈ eventKeys event, key ∈ keys
  received : ∀ event ∈ m.received, ∀ key ∈ eventKeys event, key ∈ keys

section Confinement

variable {keys : List String} {m : Mailbox P}

theorem eventKeys_content (key : String) (content : Content P) :
    eventKeys (content.event key) = [key] := by
  cases content with
  | invalidation origin => rfl
  | patches list origin => rfl

theorem keys_of_offer (maxQueueSize : Nat) {s : Subscriber P} {event : LiveEvent P}
    (hs : ∀ e ∈ s.events, ∀ key ∈ eventKeys e, key ∈ keys)
    (hevent : ∀ key ∈ eventKeys event, key ∈ keys) :
    ∀ e ∈ (s.offer maxQueueSize event).events, ∀ key ∈ eventKeys e, key ∈ keys := by
  unfold Subscriber.offer
  split
  · exact hs
  · split
    · intro e he
      rcases List.mem_append.mp he with he | he
      · exact hs e he
      · rw [List.mem_singleton.mp he]
        exact hevent
    · dsimp only
      split
      · simp
      · -- an overflow resync names the keys of the queue and of the new event
        intro e he key hkey
        rw [List.mem_singleton.mp he] at hkey
        have hkey : key ∈ sorted (unique (eventKeys event ++ s.events.flatMap eventKeys)) := hkey
        rw [mem_sorted, mem_unique, List.mem_append, List.mem_flatMap] at hkey
        rcases hkey with hkey | ⟨e', he', hkey⟩
        · exact hevent key hkey
        · exact hs e' he' key hkey

theorem Mailbox.Confined.step (h : m.Confined keys) (maxQueueSize : Nat) (topics : List String)
    {a : BrokerAction P}
    (hpublish : ∀ call scope key content, a = .publish call scope key content → key ∈ keys) :
    (m.step maxQueueSize topics a).Confined keys := by
  -- An event comes in by `publish` only; everything else moves it from one place to the next.
  cases a with
  | publish call scope key content =>
    refine ⟨h.queued, fun call' event hevent => ?_, h.received⟩
    have hevent : Function.update m.pending call
      (if m.registered then some (content.event key) else none) call' = some event := hevent
    -- the new event names its own key, which is declared by hypothesis
    by_cases hcall : call' = call
    · subst hcall
      rw [Function.update_self] at hevent
      split at hevent
      · cases hevent
        rw [eventKeys_content]
        intro k hk
        rw [List.mem_singleton.mp hk]
        exact hpublish call' scope key content rfl
      · cases hevent
    · rw [Function.update_of_ne hcall] at hevent
      exact h.pending call' event hevent
  | deliver call j =>
    refine ⟨fun s hs => ?_, fun call' event hevent => ?_, h.received⟩
    · obtain ⟨s', hs', rfl⟩ := Option.map_eq_some_iff.mp hs
      cases hpending : m.pending call with
      | none => exact h.queued s' hs'
      | some event => exact keys_of_offer maxQueueSize (h.queued s' hs') (h.pending call event hpending)
    · have hevent : Function.update m.pending call none call' = some event := hevent
      by_cases hcall : call' = call
      · subst hcall
        rw [Function.update_self] at hevent
        cases hevent
      · rw [Function.update_of_ne hcall] at hevent
        exact h.pending call' event hevent
  | subscribe j page requestedKeys =>
    refine ⟨fun s hs => ?_, h.pending, h.received⟩
    cases hs
    simp
  | consume j =>
    unfold Mailbox.step
    cases hobject : m.object with
    | none => exact h
    | some s =>
      dsimp only
      split
      · refine ⟨fun s' hs' => ?_, h.pending, h.received⟩
        cases hs'
        exact h.queued s hobject
      · cases hevents : s.events with
        | nil => exact h
        | cons event events =>
          have hqueued := h.queued s hobject
          rw [hevents] at hqueued
          -- the event that is taken off moves from the queue to the received ones
          refine ⟨fun s' hs' => ?_, h.pending, fun e he => ?_⟩
          · cases hs'
            exact fun e he => hqueued e (List.mem_cons_of_mem _ he)
          · rcases List.mem_append.mp he with he | he
            · exact h.received e he
            · rw [List.mem_singleton.mp he]
              exact hqueued event List.mem_cons_self
  | discard j =>
    refine ⟨fun s hs => ?_, h.pending, h.received⟩
    obtain ⟨s', hs', rfl⟩ := Option.map_eq_some_iff.mp hs
    exact h.queued s' hs'
  | finish j =>
    refine ⟨fun s hs => ?_, h.pending, h.received⟩
    obtain ⟨s', hs', rfl⟩ := Option.map_eq_some_iff.mp hs
    simp
  | close =>
    have hclose : m.step maxQueueSize topics .close = if m.brokerClosed then m
        else { m with brokerClosed := true, registered := false, closing := m.registered } := rfl
    rw [hclose]
    split
    · exact h
    · exact ⟨h.queued, h.pending, h.received⟩
  | closeSubscriber j =>
    refine ⟨fun s hs => ?_, h.pending, h.received⟩
    obtain ⟨s', hs', rfl⟩ := Option.map_eq_some_iff.mp hs
    simp

end Confinement

/-! ## Two runs -/

open MemoryLiveBroker in
/-- A subscriber of the declared and requested resources of its page receives, in any run, events
about keys of its subscription only; and two runs in which the same publications about those
resources, the same reads of the subscriber and the same end of the broker fall in the same order
give it the same events, whatever else is published and subscribed. -/
theorem received_depends_on_declared {blake2b : List UInt8 → String}
    (hblake : Function.Injective blake2b) {page : Page} {requestedKeys : Finset String}
    {subscription : LiveSubscription}
    (hsub : resolveSubscription blake2b page requestedKeys = .ok subscription)
    {maxQueueSize : Int} {b₀ : MemoryLiveBroker P} (hnew : create maxQueueSize = some b₀) (i : Nat)
    {as as' : List (BrokerAction P)} {b b' : MemoryLiveBroker P}
    (hrun : exec (step blake2b) b₀ as = some b) (hrun' : exec (step blake2b) b₀ as' = some b')
    (hown : ∀ p r, .subscribe i p r ∈ as → p = page ∧ r = requestedKeys)
    (hagree : as.filter (Noticed page requestedKeys i) = as'.filter (Noticed page requestedKeys i)) :
    b.received i = b'.received i ∧
      ∀ event ∈ b.received i, ∀ key ∈ eventKeys event, key ∈ subscription.keys := by
  obtain rfl : b₀ = { maxQueueSize := maxQueueSize.toNat } := by
    unfold create at hnew
    split at hnew
    · cases hnew
    · exact (Option.some.inj hnew).symm
  set b₀ : MemoryLiveBroker P := { maxQueueSize := maxQueueSize.toNat } with hb₀
  have hempty : (mailbox i b₀).Confined subscription.keys :=
    ⟨fun _ hs => (by cases hs), fun _ _ hevent => (by cases hevent),
      fun _ hevent => (by cases hevent)⟩
  have htuned : Tuned subscription.topics i maxQueueSize.toNat b₀ :=
    ⟨rfl, fun _ hs => (by cases hs), fun h => (by cases h)⟩
  -- The two runs agree on what this subscriber notices, its own subscription included.
  have hown' : ∀ p r, .subscribe i p r ∈ as' → p = page ∧ r = requestedKeys := by
    intro p r hmem
    have hfilter : BrokerAction.subscribe i p r ∈ as'.filter (Noticed page requestedKeys i) :=
      List.mem_filter.mpr ⟨hmem, by simp [Noticed]⟩
    rw [← hagree] at hfilter
    exact hown p r (List.mem_filter.mp hfilter).1
  -- the view after a run is the fold of the noticed calls, so equal lists give equal views
  have hview : ∀ {cs : List (BrokerAction P)} {c : MemoryLiveBroker P},
      exec (step blake2b) b₀ cs = some c →
      (∀ p r, .subscribe i p r ∈ cs → p = page ∧ r = requestedKeys) →
      mailbox i c = (cs.filter (Noticed page requestedKeys i)).foldl
        (Mailbox.step maxQueueSize.toNat subscription.topics) (mailbox i b₀) :=
    fun hexec hcs => (view_exec
      (fun _ a _ hI (hok : ∀ p r, a = .subscribe i p r → p = page ∧ r = requestedKeys) hstep =>
        mailbox_step hblake hsub hok hI hstep) htuned
      (fun a ha p r (heq : a = .subscribe i p r) => hcs p r (heq ▸ ha)) hexec).2
  have hmailbox := hview hrun hown
  have hmailbox' := hview hrun' hown'
  have hsame : mailbox i b = mailbox i b' := by rw [hmailbox, hmailbox', hagree]
  refine ⟨congrArg Mailbox.received hsame, ?_⟩
  -- every noticed publication names a key of the subscription
  have hconfined : (mailbox i b).Confined subscription.keys := by
    rw [hmailbox]
    refine foldl_invariant (I := Mailbox.Confined subscription.keys) _ (fun m a ha hm => ?_) hempty
    refine hm.step _ _ fun call scope key content heq => ?_
    subst heq
    exact mem_keys_of_declares hsub (List.mem_filter.mp ha).2
  exact hconfined.received

/-- The rooms of tenant `a`, live. -/
def tenantPage : Page where
  resources := [{ key := "rooms", scope := { scopeType := .tenant, identifier := some "a" }, live := true }]
  unique := by decide

/-- What the subscriber of tenant `a` does and is sent. -/
def tenantRun (others : List (BrokerAction Nat)) : List (BrokerAction Nat) :=
  [.subscribe 0 tenantPage {"rooms"}] ++ others ++
    [.publish 0 { scopeType := .tenant, identifier := some "a" } "rooms" (.patches [7] none),
      .deliver 0 0, .consume 0]

/-- The topic digests of the rooms of the tenants `a` and `b`. -/
def tenantDigests : List (List UInt8 × String) :=
  [(PercentEncoding.utf8 "tenant:a::rooms",
      "c394952150986f894fb43df135384578e87ce5deb6744b65708ed3cbac05ef9d"),
    (PercentEncoding.utf8 "tenant:b::rooms",
      "4a77b92e42691a4f9a2018e25166392eebde901c86ea6fa92ae4dd812798d936")]

open MemoryLiveBroker in
/-- An invalidation in the scope of tenant `b` makes no difference to tenant `a`. -/
theorem received_depends_on_declared_otherTenant :
    let digest := tableDigest tenantDigests
    let others : List (BrokerAction Nat) :=
      [.publish 1 { scopeType := .tenant, identifier := some "b" } "rooms" (.invalidation none)]
    ∃ b b', exec (step digest) { maxQueueSize := 1 } (tenantRun others) = some b ∧
      exec (step digest) { maxQueueSize := 1 } (tenantRun []) = some b' ∧
        b.received 0 = b'.received 0 := by
  intro digest others
  -- the digests are those of the two topics, so they are apart
  have hdigest : Function.Injective digest := tableDigest_injective (by decide) (by decide)
  obtain ⟨b, hb⟩ := Option.isSome_iff_exists.mp
    (show (exec (step digest) { maxQueueSize := 1 } (tenantRun others)).isSome = true by
      decide)
  obtain ⟨b', hb'⟩ := Option.isSome_iff_exists.mp
    (show (exec (step digest) { maxQueueSize := 1 } (tenantRun [])).isSome = true by
      decide)
  have hresolved : ∃ subscription,
      resolveSubscription digest tenantPage {"rooms"} = .ok subscription := by
    have hok : (resolveSubscription digest tenantPage {"rooms"}).toOption.isSome = true := by
      decide
    cases hresult : resolveSubscription digest tenantPage {"rooms"} with
    | error message => simp [hresult, Except.toOption] at hok
    | ok subscription => exact ⟨subscription, rfl⟩
  obtain ⟨subscription, hsub⟩ := hresolved
  have hown : ∀ p r, BrokerAction.subscribe 0 p r ∈ tenantRun others →
      p = tenantPage ∧ r = {"rooms"} := by
    intro p r hmem
    simpa [tenantRun, others] using hmem
  exact ⟨b, b', hb, hb', (received_depends_on_declared hdigest hsub
    (show create 1 = some { maxQueueSize := 1 } from rfl) 0 hb hb' hown rfl).1⟩

end Mailboxes

end FluxFast.Server

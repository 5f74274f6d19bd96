/-
  What one step of the server can do, and the first invariant.

  `processRequest_spec` says once what a handler may do to the store.  `Step` lists the transitions
  of `exec` with their guards (`step_of_exec`), so that an invariant is a case analysis over `Step`
  and never unfolds `exec`.

  * `noLostWakeup_of_run`: a key with waiting clients is absent from the store, or a handler that
    inserted it has still to wake them.
-/
import TorchNpu.Store.Server

namespace TorchNpu.Store

/-! ### Handlers -/

/-- What a handler can decide in its critical section. -/
structure HandlerSpec (keyStore : KeyStore) (request : StoreMessage) (handled : Handled) :
    Prop where
  /-- A key is new in the store only if its waiters will be woken. -/
  mem : ∀ key ∈ handled.keyStore, key ∈ keyStore ∨ handled.wakeup = some key
  wakeup_mem : ∀ key, handled.wakeup = some key → key ∈ handled.keyStore
  /-- Keys are registered by `WAIT` alone, and only those that are absent. -/
  waitKeys : ∀ keys, handled.waitKeys = some keys → request.mt = .wait
    ∧ keys = request.keys.filter (fun key => decide (key ∉ keyStore)) ∧ keys ≠ []
  wait : request.mt = .wait → handled.keyStore = keyStore ∧ handled.wakeup = none
    ∧ (handled.waitKeys = none → ∀ key ∈ request.keys, key ∈ keyStore)
  wait_response : request.mt = .wait → handled.waitKeys = none → handled.response.mt = .wait
  /-- `KEYS_STOP_WAITING` is the reply to a `WAIT` that registered nothing. -/
  response_wait : handled.response.mt = .wait →
    request.mt = .wait ∧ handled.waitKeys = none ∧ handled.response.fd = request.fd

theorem mem_insert_or {keyStore : KeyStore} {key key' : Key} {value : Bytes}
    (h : key' ∈ keyStore.insert key value) :
    key' ∈ keyStore ∨ (if key ∈ keyStore then none else some key) = some key' := by
  rcases (AList.mem_insert keyStore).mp h with rfl | h
  · by_cases hmem : key' ∈ keyStore
    · exact Or.inl hmem
    · exact Or.inr (if_neg hmem)
  · exact Or.inl h

/-- A handler other than `WAIT` that registers nothing and answers with its own type. -/
theorem HandlerSpec.of_ne_wait {keyStore : KeyStore} {request : StoreMessage} {handled : Handled}
    (hmem : ∀ key ∈ handled.keyStore, key ∈ keyStore ∨ handled.wakeup = some key)
    (hwakeup : ∀ key, handled.wakeup = some key → key ∈ handled.keyStore)
    (hkeys : handled.waitKeys = none) (hmt : request.mt ≠ .wait)
    (hresponse : handled.response.mt ≠ .wait) : HandlerSpec keyStore request handled where
  mem := hmem
  wakeup_mem := hwakeup
  waitKeys keys h := by
    rw [hkeys] at h
    cases h
  wait h := absurd h hmt
  wait_response h := absurd h hmt
  response_wait h := absurd h hresponse

/-- A handler that leaves the store alone. -/
theorem HandlerSpec.of_read {keyStore : KeyStore} {request response : StoreMessage}
    (hmt : request.mt ≠ .wait) (hresponse : response.mt ≠ .wait) :
    HandlerSpec keyStore request { keyStore, response } :=
  .of_ne_wait (fun _ h => Or.inl h) (fun _ h => absurd h (by simp)) rfl hmt hresponse

/-- A handler that writes one key and wakes its waiters if it is new. -/
theorem HandlerSpec.of_insert {request response : StoreMessage} (keyStore : KeyStore) (key : Key)
    (value : Bytes) (hmt : request.mt ≠ .wait) (hresponse : response.mt ≠ .wait) :
    HandlerSpec keyStore request {
      keyStore := keyStore.insert key value
      wakeup := if key ∈ keyStore then none else some key
      response } := by
  refine .of_ne_wait (fun key' h => mem_insert_or h) (fun key' h => ?_) rfl hmt hresponse
  dsimp only at h
  split_ifs at h
  cases h
  exact (AList.mem_insert keyStore).mpr (Or.inl rfl)

theorem processWaitKeysRequest_spec {keyStore : KeyStore} {request : StoreMessage}
    {handled : Handled} (hmt : request.mt = .wait)
    (h : processWaitKeysRequest keyStore request = some handled) :
    HandlerSpec keyStore request handled := by
  unfold processWaitKeysRequest at h
  have hall : checkAllKeysExist keyStore request.keys = true
      ↔ ∀ key ∈ request.keys, key ∈ keyStore := by
    simp [checkAllKeysExist]
  split_ifs at h with hexist
  · cases h
    exact ⟨fun _ h => Or.inl h, fun _ h => absurd h (by simp), fun _ h => absurd h (by simp),
      fun _ => ⟨rfl, rfl, fun _ => hall.mp hexist⟩, fun _ _ => rfl, fun _ => ⟨hmt, rfl, rfl⟩⟩
  · cases h
    refine ⟨fun _ h => Or.inl h, fun _ h => absurd h (by simp), fun keys h => ?_,
      fun _ => ⟨rfl, rfl, fun h => absurd h (by simp)⟩, fun _ h => absurd h (by simp),
      fun h => absurd h (by simp)⟩
    cases h
    refine ⟨hmt, rfl, fun hnil => hexist (hall.mpr fun key hkey => ?_)⟩
    by_contra hmem
    have hfilter : key ∈ request.keys.filter fun key => decide (key ∉ keyStore) :=
      List.mem_filter.mpr ⟨hkey, by simpa using hmem⟩
    rw [hnil] at hfilter
    exact List.not_mem_nil hfilter

theorem processCompareSetRequest_spec {keyStore : KeyStore} {request : StoreMessage}
    {handled : Handled} (hmt : request.mt ≠ .wait)
    (h : processCompareSetRequest keyStore request = some handled) :
    HandlerSpec keyStore request handled := by
  simp only [processCompareSetRequest, Option.bind_eq_bind, Option.bind_eq_some_iff] at h
  obtain ⟨key, -, expected, -, h⟩ := h
  cases hlookup : keyStore.lookup key with
  | none =>
    have habsent : key ∉ keyStore := AList.lookup_eq_none.mp hlookup
    simp only [hlookup] at h
    split_ifs at h
    · rw [Option.bind_eq_some_iff] at h
      obtain ⟨desired, -, ⟨⟩⟩ := h
      refine (if_neg habsent : (if key ∈ keyStore then none else some key) = some key) ▸
        HandlerSpec.of_insert keyStore key desired hmt ?_
      simp
    · cases h
      exact .of_read hmt (by simp)
  | some value =>
    have hmem : key ∈ keyStore := by
      rw [← AList.lookup_isSome, hlookup]
      rfl
    simp only [hlookup] at h
    split_ifs at h
    · rw [Option.bind_eq_some_iff] at h
      obtain ⟨desired, -, ⟨⟩⟩ := h
      refine (if_pos hmem : (if key ∈ keyStore then none else some key) = none) ▸
        HandlerSpec.of_insert keyStore key desired hmt ?_
      simp
    · cases h
      exact .of_read hmt (by simp)

theorem processAddRequest_spec {keyStore : KeyStore} {request : StoreMessage} {handled : Handled}
    (hmt : request.mt ≠ .wait) (h : processAddRequest keyStore request = some handled) :
    HandlerSpec keyStore request handled := by
  simp only [processAddRequest, Option.bind_eq_bind, Option.bind_eq_some_iff] at h
  obtain ⟨_, -, delta, -, key, -, h⟩ := h
  split at h
  · rw [Option.bind_eq_some_iff] at h
    obtain ⟨old, -, ⟨⟩⟩ := h
    exact .of_insert _ _ _ hmt (by simp)
  · cases h
    exact .of_insert _ _ _ hmt (by simp)

theorem processDeleteRequest_spec {keyStore : KeyStore} {request : StoreMessage}
    {handled : Handled} (hmt : request.mt ≠ .wait)
    (h : processDeleteRequest keyStore request = some handled) :
    HandlerSpec keyStore request handled := by
  simp only [processDeleteRequest, Option.bind_eq_bind, Option.bind_eq_some_iff] at h
  obtain ⟨key, -, ⟨⟩⟩ := h
  exact .of_ne_wait (fun key' h => Or.inl (AList.mem_erase.mp h).2) (fun _ h => absurd h (by simp))
    rfl hmt (by simp)

theorem processRequest_spec {keyStore : KeyStore} {request : StoreMessage} {handled : Handled}
    (h : processRequest keyStore request = some handled) :
    HandlerSpec keyStore request handled := by
  unfold processRequest at h
  split at h
  next hmt =>
    simp only [processSetRequest, Option.bind_eq_bind, Option.bind_eq_some_iff] at h
    obtain ⟨key, -, value, -, ⟨⟩⟩ := h
    exact .of_insert _ _ _ (by simp [hmt]) (by simp)
  next hmt => exact processCompareSetRequest_spec (by simp [hmt]) h
  next hmt =>
    simp only [processGetRequest, Option.bind_eq_bind, Option.bind_eq_some_iff] at h
    obtain ⟨key, -, h⟩ := h
    split at h
    · cases h
      exact .of_read (by simp [hmt]) (by simp)
    · cases h
      exact .of_read (by simp [hmt]) (by simp)
  next hmt => exact processAddRequest_spec (by simp [hmt]) h
  next hmt =>
    cases h
    exact .of_read (by simp [hmt]) (by simp)
  next hmt => exact processWaitKeysRequest_spec hmt h
  next hmt =>
    cases h
    exact .of_read (by simp [hmt]) (by simp)
  next hmt => exact processDeleteRequest_spec (by simp [hmt]) h
  next hwait _ _ =>
    cases h
    exact .of_read (by simpa using hwait) (by simpa using hwait)

namespace Server

/-! ### Steps -/

variable {threadNum : ℕ}

/-- The transitions of the server. -/
inductive Step (threadNum : ℕ) (s : Server) : Label → Server → Output → Prop
  | connect {fd : Fd} (hfd : fd ∉ s.registered) :
    Step threadNum s (.connect fd) { s with registered := s.registered.insert fd .all } none
  | hangUp {fd : Fd} (hfd : fd ∈ s.registered) (hpc : s.pc (worker threadNum fd) = .idle) :
    Step threadNum s (.hangUp fd) { s with registered := s.registered.erase fd } none
  | receive {fd : Fd} {events : EventMask} {chunks : List Bytes} {ctx : ClientIoContext}
      (hfd : fd ∈ s.registered) (hpc : s.pc (worker threadNum fd) = .idle)
      (hin : events.epollIn = true) (hctx : (s.ctx fd).receiveData chunks = some ctx) :
    Step threadNum s (.event fd events chunks)
      ((s.setCtx fd ctx).setPc (worker threadNum fd) (.serving ⟨fd, events.epollOut⟩)) none
  | noInput {fd : Fd} {events : EventMask} {chunks : List Bytes}
      (hfd : fd ∈ s.registered) (hpc : s.pc (worker threadNum fd) = .idle)
      (hin : events.epollIn = false) :
    Step threadNum s (.event fd events chunks)
      ((s.setCtx fd (s.ctx fd)).setPc (worker threadNum fd)
        (afterInput ⟨fd, events.epollOut⟩ (s.ctx fd).currentEvents)) none
  | handle {t : ℕ} {job : Job} {request : StoreMessage} {requests : List StoreMessage}
      {handled : Handled} (hpc : s.pc t = .serving job)
      (hreq : (s.ctx job.fd).requests = request :: requests)
      (hhandled : processRequest s.keyStore request = some handled) :
    Step threadNum s (.serve t)
      { (s.setCtx job.fd { s.ctx job.fd with requests := requests }).setPc t
          (afterHandler job handled) with
        keyStore := handled.keyStore
        waiting := match handled.waitKeys with
          | some keys => s.waiting.setKeysWaitingSocket keys (job.fd, request.fd) keys.length
          | none => s.waiting } none
  | served {t : ℕ} {job : Job} (hpc : s.pc t = .serving job) (hreq : (s.ctx job.fd).requests = []) :
    Step threadNum s (.serve t) (s.setPc t (afterInput job
      (if (s.ctx job.fd).sendBufEmpty then EventMask.input else EventMask.all))) none
  | wakeup {t : ℕ} {job : Job} {key : Key} {response : StoreMessage}
      (hpc : s.pc t = .wakeup job key response) :
    Step threadNum s (.wakeup t)
      { s.setPc t (.notifying job (s.waiting.wakeupWaitingClients key).1 response) with
        waiting := (s.waiting.wakeupWaitingClients key).2 } none
  | notify {t accepted : ℕ} {job : Job} {client : Client} {clients : List Client}
      {response : StoreMessage} (hpc : s.pc t = .notifying job (client :: clients) response) :
    Step threadNum s (.notify t accepted) (s.setPc t (.notifying job clients response))
      (if client.1 ∈ s.registered then
        some (client.1, (pack (stopWaitingResponse client)).take accepted) else none)
  | notified {t accepted : ℕ} {job : Job} {response : StoreMessage}
      (hpc : s.pc t = .notifying job [] response) :
    Step threadNum s (.notify t accepted) (s.setPc t (.responding job response)) none
  | skip {t : ℕ} {job : Job} {response : StoreMessage} (hpc : s.pc t = .responding job response)
      (hmt : response.mt = .skipMsg) :
    Step threadNum s (.respond t) (s.setPc t (.serving job)) none
  | respond {t : ℕ} {job : Job} {response : StoreMessage} (hpc : s.pc t = .responding job response)
      (hmt : response.mt ≠ .skipMsg) :
    Step threadNum s (.respond t)
      ((s.setCtx job.fd ((s.ctx job.fd).appendResponse response)).setPc t (.flushing job 0 false))
      none
  | flushed {t accepted : ℕ} {job : Job} {offset : UInt32} {last : Bool}
      (hpc : s.pc t = .flushing job offset last)
      (hdata : ((s.ctx job.fd).writeAt offset accepted).isEmpty = true) :
    Step threadNum s (.flush t accepted)
      ((s.setCtx job.fd ((s.ctx job.fd).eraseSent offset)).setPc t
        (if last then .finishing job.fd .input else .serving job)) none
  | flush {t accepted : ℕ} {job : Job} {offset : UInt32} {last : Bool}
      (hpc : s.pc t = .flushing job offset last)
      (hdata : ((s.ctx job.fd).writeAt offset accepted).isEmpty = false) :
    Step threadNum s (.flush t accepted)
      (s.setPc t (.flushing job
        (offset + UInt32.ofNat ((s.ctx job.fd).writeAt offset accepted).length) last))
      (some (job.fd, (s.ctx job.fd).writeAt offset accepted))
  | unchanged {t : ℕ} {ok : Bool} {fd : Fd} {setEvents : EventMask}
      (hpc : s.pc t = .finishing fd setEvents) (hevents : setEvents = (s.ctx fd).currentEvents) :
    Step threadNum s (.finish t ok) (s.setPc t .idle) none
  | modify {t : ℕ} {fd : Fd} {setEvents : EventMask} (hpc : s.pc t = .finishing fd setEvents)
      (hevents : setEvents ≠ (s.ctx fd).currentEvents) :
    Step threadNum s (.finish t true)
      { (s.setCtx fd { s.ctx fd with currentEvents := setEvents }).setPc t .idle with
        registered := s.registered.insert fd setEvents } none
  | modifyFail {t : ℕ} {fd : Fd} {setEvents : EventMask} (hpc : s.pc t = .finishing fd setEvents)
      (hevents : setEvents ≠ (s.ctx fd).currentEvents) :
    Step threadNum s (.finish t false)
      { s.setPc t .idle with
        registered := s.registered.erase fd
        clientCtx := s.clientCtx.erase fd } none

theorem step_of_exec {s s' : Server} {l : Label} {out : Output}
    (h : exec threadNum s l = some (s', out)) : Step threadNum s l s' out := by
  cases l with
  | connect fd =>
    simp only [exec] at h
    split_ifs at h with hfd
    cases h
    exact .connect hfd
  | hangUp fd =>
    simp only [exec] at h
    split_ifs at h with hfd
    cases h
    exact .hangUp hfd.1 hfd.2
  | event fd events chunks =>
    simp only [exec] at h
    split_ifs at h with hfd hin
    · simp only [Option.bind_eq_bind, Option.bind_eq_some_iff] at h
      obtain ⟨ctx, hctx, ⟨⟩⟩ := h
      exact .receive hfd.1 hfd.2 hin hctx
    · cases h
      exact .noInput hfd.1 hfd.2 (by simpa using hin)
  | serve t =>
    simp only [exec] at h
    split at h
    next job hpc =>
      cases hreq : (s.ctx job.fd).requests with
      | nil =>
        simp only [ClientIoContext.hasNextReq, hreq] at h
        cases h
        exact .served hpc hreq
      | cons request requests =>
        simp only [ClientIoContext.hasNextReq, ClientIoContext.nextRequest, hreq,
          List.isEmpty_cons, Bool.not_false, if_true, Option.bind_eq_bind,
          Option.bind_eq_some_iff] at h
        obtain ⟨handled, hhandled, ⟨⟩⟩ := h
        exact .handle hpc hreq hhandled
    next => cases h
  | wakeup t =>
    simp only [exec] at h
    split at h
    next job key response hpc =>
      cases h
      exact .wakeup hpc
    next => cases h
  | notify t accepted =>
    simp only [exec] at h
    split at h
    next job client clients response hpc =>
      cases h
      exact .notify hpc
    next job response hpc =>
      cases h
      exact .notified hpc
    next => cases h
  | respond t =>
    simp only [exec] at h
    split at h
    next job response hpc =>
      split_ifs at h with hmt
      · cases h
        exact .skip hpc hmt
      · cases h
        exact .respond hpc hmt
    next => cases h
  | flush t accepted =>
    simp only [exec] at h
    split at h
    next job offset last hpc =>
      by_cases hdata : ((s.ctx job.fd).writeAt offset accepted).isEmpty = true
      · rw [if_pos hdata] at h
        cases h
        exact .flushed hpc hdata
      · rw [if_neg hdata] at h
        cases h
        exact .flush hpc (by simpa using hdata)
    next => cases h
  | finish t ok =>
    simp only [exec] at h
    split at h
    next fd setEvents hpc =>
      split_ifs at h with hevents hok
      · cases h
        exact .unchanged hpc hevents
      · cases h
        subst hok
        exact .modify hpc hevents
      · cases h
        rw [Bool.not_eq_true] at hok
        subst hok
        exact .modifyFail hpc hevents
    next => cases h

theorem step_of_next {s s' : Server} {l : Label} (h : next threadNum s l = some s') :
    ∃ out, Step threadNum s l s' out := by
  rw [next, Option.map_eq_some_iff] at h
  obtain ⟨⟨s', out⟩, h, rfl⟩ := h
  exact ⟨out, step_of_exec h⟩

@[simp] theorem setPc_pc_self (s : Server) (t : ℕ) (pc : Pc) : (s.setPc t pc).pc t = pc := by
  simp [setPc]

theorem setPc_pc_of_ne {s : Server} {t t' : ℕ} (h : t' ≠ t) (pc : Pc) :
    (s.setPc t pc).pc t' = s.pc t' := by
  simp [setPc, h]

/-! ### Threads and connections -/

/-- A thread works on open connections of its own. -/
structure ThreadInv (threadNum : ℕ) (s : Server) : Prop where
  owner : ∀ t fd, (s.pc t).fd? = some fd → worker threadNum fd = t
  isOpen : ∀ t fd, (s.pc t).fd? = some fd → fd ∈ s.registered

theorem fd?_afterInput (job : Job) (setEvents : EventMask) :
    (afterInput job setEvents).fd? = some job.fd := by
  unfold afterInput
  split_ifs <;> rfl

theorem fd?_afterHandler (job : Job) (handled : Handled) :
    (afterHandler job handled).fd? = some job.fd := by
  unfold afterHandler
  split <;> rfl

/-- A thread goes on with a connection that is open and its own, and none is closed. -/
theorem ThreadInv.of_move {s s' : Server} {t : ℕ} {pc : Pc} (hs : ThreadInv threadNum s)
    (hpc : s'.pc = (s.setPc t pc).pc) (hreg : ∀ fd ∈ s.registered, fd ∈ s'.registered)
    (hfd : ∀ fd, pc.fd? = some fd → worker threadNum fd = t ∧ fd ∈ s.registered) :
    ThreadInv threadNum s' := by
  have hboth : ∀ t' fd, (s'.pc t').fd? = some fd →
      worker threadNum fd = t' ∧ fd ∈ s'.registered := by
    intro t' fd h
    by_cases ht' : t' = t
    · rw [ht', hpc, setPc_pc_self] at h
      rw [ht']
      exact ⟨(hfd fd h).1, hreg fd (hfd fd h).2⟩
    · rw [hpc, setPc_pc_of_ne ht'] at h
      exact ⟨hs.owner t' fd h, hreg fd (hs.isOpen t' fd h)⟩
  exact ⟨fun t' fd h => (hboth t' fd h).1, fun t' fd h => (hboth t' fd h).2⟩

/-- A thread stays with its connection. -/
theorem ThreadInv.of_stay {s s' : Server} {t : ℕ} {pc : Pc} {fd : Fd} (hs : ThreadInv threadNum s)
    (hpc : s'.pc = (s.setPc t pc).pc) (hreg : s'.registered = s.registered)
    (hold : (s.pc t).fd? = some fd) (hnew : pc.fd? = some fd) : ThreadInv threadNum s' := by
  refine hs.of_move hpc (fun fd' h => by rwa [hreg]) fun fd' h => ?_
  rw [hnew, Option.some.injEq] at h
  subst h
  exact ⟨hs.owner t fd hold, hs.isOpen t fd hold⟩

theorem threadInv_step {s s' : Server} {l : Label} {out : Output} (hs : ThreadInv threadNum s)
    (h : Step threadNum s l s' out) : ThreadInv threadNum s' := by
  cases h with
  | connect =>
    exact ⟨hs.owner, fun t fd h => (AList.mem_insert _).mpr (Or.inr (hs.isOpen t fd h))⟩
  | @hangUp fd hfd hpc =>
    -- the thread of the closed connection is idle, and no other thread works on it
    refine ⟨hs.owner, fun t fd' h => AList.mem_erase.mpr ⟨?_, hs.isOpen t fd' h⟩⟩
    rintro rfl
    rw [← hs.owner t fd' h, hpc] at h
    cases h
  | receive hfd =>
    refine hs.of_move rfl (fun _ h => h) ?_
    rintro fd' ⟨⟩
    exact ⟨rfl, hfd⟩
  | noInput hfd =>
    refine hs.of_move rfl (fun _ h => h) fun fd' h => ?_
    rw [fd?_afterInput] at h
    cases h
    exact ⟨rfl, hfd⟩
  | handle hpc => exact hs.of_stay rfl rfl (by rw [hpc]; rfl) (fd?_afterHandler _ _)
  | served hpc => exact hs.of_stay rfl rfl (by rw [hpc]; rfl) (fd?_afterInput _ _)
  | wakeup hpc => exact hs.of_stay rfl rfl (by rw [hpc]; rfl) rfl
  | notify hpc => exact hs.of_stay rfl rfl (by rw [hpc]; rfl) rfl
  | notified hpc => exact hs.of_stay rfl rfl (by rw [hpc]; rfl) rfl
  | skip hpc => exact hs.of_stay rfl rfl (by rw [hpc]; rfl) rfl
  | respond hpc => exact hs.of_stay rfl rfl (by rw [hpc]; rfl) rfl
  | flushed hpc => exact hs.of_stay rfl rfl (by rw [hpc]; rfl) (by split_ifs <;> rfl)
  | flush hpc => exact hs.of_stay rfl rfl (by rw [hpc]; rfl) rfl
  | unchanged => exact hs.of_move rfl (fun _ h => h) fun _ h => (by cases h)
  | modify =>
    exact hs.of_move rfl (fun _ h => (AList.mem_insert _).mpr (Or.inr h)) fun _ h => (by cases h)
  | @modifyFail t fd setEvents hpc =>
    have hrest : ∀ t' fd', ((s.setPc t .idle).pc t').fd? = some fd' →
        t' ≠ t ∧ (s.pc t').fd? = some fd' := by
      intro t' fd' h
      have hne : t' ≠ t := by
        rintro rfl
        rw [setPc_pc_self] at h
        cases h
      rw [setPc_pc_of_ne hne] at h
      exact ⟨hne, h⟩
    refine ⟨fun t' fd' h => hs.owner t' fd' (hrest t' fd' h).2, fun t' fd' h => ?_⟩
    obtain ⟨hne, hold⟩ := hrest t' fd' h
    refine AList.mem_erase.mpr ⟨?_, hs.isOpen t' fd' hold⟩
    rintro rfl
    exact hne ((hs.owner t' fd' hold).symm.trans (hs.owner t fd' (by rw [hpc]; rfl)))

theorem threadInv_init : ThreadInv threadNum {} :=
  ⟨fun _ _ h => (by cases h), fun _ _ h => (by cases h)⟩

/-! ### Registrations -/

theorem mem_register {client : Client} {sockets : AList fun _ : Key => List Client}
    {key key' : Key} : key' ∈ Waiting.register client sockets key ↔ key' = key ∨ key' ∈ sockets := by
  rw [Waiting.register, AList.mem_insert]

theorem mem_foldl_register {client : Client} {keys : List Key}
    {sockets : AList fun _ : Key => List Client} {key : Key} :
    key ∈ keys.foldl (Waiting.register client) sockets ↔ key ∈ keys ∨ key ∈ sockets := by
  induction keys generalizing sockets with
  | nil => simp
  | cons first keys ih =>
    rw [List.foldl_cons, ih, mem_register, List.mem_cons]
    tauto

/-- A key keeps waiting clients through `WakeupWaitingClients` only if another key is woken. -/
theorem mem_wakeupWaitingClients {w : Waiting} {key key' : Key}
    (h : key' ∈ (w.wakeupWaitingClients key).2.keyWaitingSockets) :
    key' ≠ key ∧ key' ∈ w.keyWaitingSockets := by
  unfold Waiting.wakeupWaitingClients at h
  cases hlookup : w.keyWaitingSockets.lookup key with
  | none =>
    rw [hlookup] at h
    refine ⟨?_, h⟩
    rintro rfl
    exact AList.lookup_eq_none.mp hlookup h
  | some clients =>
    rw [hlookup] at h
    exact AList.mem_erase.mp h

/-- The clients waiting for a key. -/
def clientsOf (sockets : AList fun _ : Key => List Client) (key : Key) : List Client :=
  (sockets.lookup key).getD []

theorem clientsOf_register (client : Client) (sockets : AList fun _ : Key => List Client)
    (key key' : Key) :
    clientsOf (Waiting.register client sockets key) key'
      = clientsOf sockets key' ++ if key' = key then [client] else [] := by
  unfold clientsOf Waiting.register
  by_cases h : key' = key
  · subst h
    rw [AList.lookup_insert, if_pos rfl]
    rfl
  · rw [AList.lookup_insert_ne h, if_neg h, List.append_nil]

/-- Registering appends the client to the list of a key as often as the key is named. -/
theorem clientsOf_foldl_register (client : Client) (keys : List Key)
    (sockets : AList fun _ : Key => List Client) (key : Key) :
    clientsOf (keys.foldl (Waiting.register client) sockets) key
      = clientsOf sockets key ++ List.replicate (keys.count key) client := by
  induction keys generalizing sockets with
  | nil => simp
  | cons first keys ih =>
    rw [List.foldl_cons, ih, clientsOf_register, List.append_assoc, List.count_cons]
    by_cases h : key = first
    · simp only [h, if_true, BEq.rfl, List.singleton_append, List.replicate_succ]
    · have hbeq : (first == key) = false := beq_eq_false_iff_ne.mpr fun heq => h heq.symm
      simp only [h, hbeq, if_false, List.nil_append, Bool.false_eq_true, Nat.add_zero]

/-- `WakeupWaitingClients` on the clients of the key, whether there is an entry or not. -/
theorem wakeupWaitingClients_eq (w : Waiting) (key : Key) :
    (w.wakeupWaitingClients key).1
        = (Waiting.countDown (clientsOf w.keyWaitingSockets key) w.socketWaitKeyNum).1
      ∧ (w.wakeupWaitingClients key).2.keyWaitingSockets = w.keyWaitingSockets.erase key
      ∧ (w.wakeupWaitingClients key).2.socketWaitKeyNum
        = (Waiting.countDown (clientsOf w.keyWaitingSockets key) w.socketWaitKeyNum).2 := by
  unfold Waiting.wakeupWaitingClients clientsOf
  cases hlookup : w.keyWaitingSockets.lookup key with
  | none =>
    refine ⟨rfl, ?_, rfl⟩
    have habsent := AList.lookup_eq_none.mp hlookup
    exact (AList.ext (List.kerase_of_notMem_keys habsent)).symm
  | some clients => exact ⟨rfl, rfl, rfl⟩

/-! ### No lost wakeup -/

/-- A handler has inserted `key` and has not yet performed `WakeupWaitingClients(key)`. -/
def WakeupPending (s : Server) (key : Key) : Prop := ∃ t, (s.pc t).waking = some key

/-- Every key with registered waiters is absent from the store or about to be woken. -/
def NoLostWakeup (s : Server) : Prop :=
  ∀ key ∈ s.waiting.keyWaitingSockets, key ∉ s.keyStore ∨ WakeupPending s key

/-- A thread that is not about to wake `key` can move without taking a wakeup away. -/
theorem WakeupPending.of_setPc {s s' : Server} {t : ℕ} {pc : Pc} {key : Key}
    (h : WakeupPending s key) (ht : (s.pc t).waking ≠ some key)
    (hpc : s'.pc = (s.setPc t pc).pc) : WakeupPending s' key := by
  obtain ⟨t', ht'⟩ := h
  refine ⟨t', ?_⟩
  rw [hpc, setPc_pc_of_ne ?_, ht']
  rintro rfl
  exact ht ht'

/-- Steps that touch neither the store nor the registrations and wake nobody. -/
theorem NoLostWakeup.of_move {s s' : Server} {t : ℕ} {pc : Pc} (h : NoLostWakeup s)
    (hstore : s'.keyStore = s.keyStore) (hwaiting : s'.waiting = s.waiting)
    (hpc : s'.pc = (s.setPc t pc).pc) (ht : (s.pc t).waking = none) : NoLostWakeup s' := by
  intro key hkey
  rw [hwaiting] at hkey
  rw [hstore]
  exact (h key hkey).imp_right fun hp => hp.of_setPc (by simp [ht]) hpc

theorem noLostWakeup_step {s s' : Server} {l : Label} {out : Output} (hs : NoLostWakeup s)
    (h : Step threadNum s l s' out) : NoLostWakeup s' := by
  cases h with
  | connect => exact hs
  | hangUp => exact hs
  | receive hfd hpc => exact hs.of_move rfl rfl rfl (by rw [hpc]; rfl)
  | noInput hfd hpc => exact hs.of_move rfl rfl rfl (by rw [hpc]; rfl)
  | served hpc => exact hs.of_move rfl rfl rfl (by rw [hpc]; rfl)
  | notify hpc => exact hs.of_move rfl rfl rfl (by rw [hpc]; rfl)
  | notified hpc => exact hs.of_move rfl rfl rfl (by rw [hpc]; rfl)
  | skip hpc => exact hs.of_move rfl rfl rfl (by rw [hpc]; rfl)
  | respond hpc => exact hs.of_move rfl rfl rfl (by rw [hpc]; rfl)
  | flushed hpc => exact hs.of_move rfl rfl rfl (by rw [hpc]; rfl)
  | flush hpc => exact hs.of_move rfl rfl rfl (by rw [hpc]; rfl)
  | unchanged hpc => exact hs.of_move rfl rfl rfl (by rw [hpc]; rfl)
  | modify hpc => exact hs.of_move rfl rfl rfl (by rw [hpc]; rfl)
  | modifyFail hpc => exact hs.of_move rfl rfl rfl (by rw [hpc]; rfl)
  | @handle t job request requests handled hpc hreq hhandled =>
    have hspec := processRequest_spec hhandled
    intro key hkey
    by_cases hstore : key ∈ handled.keyStore
    · right
      cases hwait : handled.waitKeys with
      | some keys =>
        -- a `WAIT` registers absent keys and leaves the store as it is
        obtain ⟨hmt, hkeys, -⟩ := hspec.waitKeys keys hwait
        obtain ⟨hsame, hnone, -⟩ := hspec.wait hmt
        simp only [hwait, Waiting.setKeysWaitingSocket, mem_foldl_register] at hkey
        rcases hkey with hkey | hkey
        · rw [hkeys, List.mem_filter, ← hsame] at hkey
          exact absurd hstore (by simpa using hkey.2)
        · rw [hsame] at hstore
          have hpending := (hs key hkey).resolve_left (not_not_intro hstore)
          exact hpending.of_setPc (by simp [hpc, Pc.waking]) rfl
      | none =>
        simp only [hwait] at hkey
        rcases hspec.mem key hstore with hold | hnew
        · have hpending := (hs key hkey).resolve_left (not_not_intro hold)
          exact hpending.of_setPc (by simp [hpc, Pc.waking]) rfl
        · -- this handler has just inserted the key
          refine ⟨t, ?_⟩
          show (((s.setCtx job.fd _).setPc t (afterHandler job handled)).pc t).waking = _
          rw [setPc_pc_self, afterHandler, hnew]
          rfl
    · exact Or.inl hstore
  | @wakeup t job key response hpc =>
    intro key' hkey'
    obtain ⟨hne, hmem⟩ := mem_wakeupWaitingClients hkey'
    refine (hs key' hmem).imp_right fun hp => hp.of_setPc (t := t) (fun heq => ?_) rfl
    rw [hpc, Pc.waking, Option.some.injEq] at heq
    exact hne heq.symm

/-- In every reachable state, whatever the worker threads did and in whatever order, a key with
waiting clients is absent from the store or a handler that inserted it has still to wake them. -/
theorem noLostWakeup_of_run {ls : List Label} {s : Server}
    (h : runFromStart threadNum ls = some s) : NoLostWakeup s := by
  refine Machine.run_induction (fun s l s' hs hstep => ?_) ?_ h
  · obtain ⟨out, hstep⟩ := step_of_next hstep
    exact noLostWakeup_step hs hstep
  · intro key hkey
    exact absurd hkey (AList.notMem_empty key)

/-- A client waits for the key `a`, and another thread has just set it. -/
def waitThenSet : List Label :=
  [.connect 4, .event 4 .input [pack { mt := .wait, keys := [[97]] }], .serve 0, .connect 5,
    .event 5 .input [pack { mt := .set, keys := [[97]], values := [[]] }], .serve 1]

theorem noLostWakeup_waitThenSet :
    ∃ s, runFromStart 4 waitThenSet = some s ∧ [97] ∈ s.waiting.keyWaitingSockets
      ∧ [97] ∈ s.keyStore ∧ NoLostWakeup s := by
  have hrun : (runFromStart 4 waitThenSet).map
      (fun s => decide ([97] ∈ s.waiting.keyWaitingSockets ∧ [97] ∈ s.keyStore)) = some true := by
    decide +kernel
  rw [Option.map_eq_some_iff] at hrun
  obtain ⟨s, hs, hmem⟩ := hrun
  rw [decide_eq_true_eq] at hmem
  exact ⟨s, hs, hmem.1, hmem.2, noLostWakeup_of_run hs⟩

end Server

end TorchNpu.Store

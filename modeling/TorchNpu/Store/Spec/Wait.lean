/-
  When `KEYS_STOP_WAITING` may be trusted.

  `audit` runs the server and keeps, for every client, the keys its most recent `WAIT` listed that
  have been in the store at no moment since.  A reply `KEYS_STOP_WAITING` to a client with such keys
  is wrong.

  The server decides by a count per client, which a new `WAIT` overwrites while the registrations of
  an abandoned one stay in the per-key lists and keep counting down.  `FreshWait` is the condition
  that nothing of the kind is around when a `WAIT` has to wait: no registration of the client, no
  `KEYS_STOP_WAITING` on its way to it, and no wakeup pending for a key it is about to wait for.

  * `missing_eq_nil_of_stopSent`: in runs whose `WAIT`s are all fresh, no reply is wrong;
  * `missing_ne_nil_of_abandoned`: a run with an abandoned `WAIT` in which one is.
-/
import TorchNpu.Store.Spec.Server
import TorchNpu.Lib.AListSum

namespace TorchNpu.Store.Server

/-! ### What a step does for a waiting client -/

/-- The client and the keys of the `WAIT` request a step processes. -/
def waitProcessed (s : Server) : Label → Option (Client × List Key)
  | .serve t =>
    match s.pc t with
    | .serving job =>
      match (s.ctx job.fd).requests with
      | request :: _ =>
        if request.mt = .wait then some ((job.fd, request.fd), request.keys) else none
      | [] => none
    | _ => none
  | _ => none

/-- The client a step sends `KEYS_STOP_WAITING` to, by a `write` of `WakeupWaitingClients` or by
`SendResponse`. -/
def stopSent (s : Server) : Label → Option Client
  | .notify t _ => (s.pc t).stopping.head?
  | .respond t =>
    match s.pc t with
    | .responding job response =>
      if response.mt = .wait then some (job.fd, response.fd) else none
    | _ => none
  | _ => none

/-- A server with the keys each client's most recent `WAIT` listed that have been in the store at no
moment since. -/
structure Audited where
  server : Server := {}
  missing : Client → List Key := fun _ => []

/-- A step of the server and of the record. -/
def audit (threadNum : ℕ) (a : Audited) (l : Label) : Option Audited :=
  (next threadNum a.server l).map fun s =>
    let listed := match waitProcessed a.server l with
      | some (client, keys) => Function.update a.missing client keys
      | none => a.missing
    ⟨s, fun client => (listed client).filter fun key => decide (key ∉ s.keyStore)⟩

/-- A `WAIT` with a missing key finds no registration of its client, no `KEYS_STOP_WAITING` about to
be sent to it, and no pending wakeup of the missing key. -/
def FreshWait (threadNum : ℕ) (s : Server) (l : Label) : Prop :=
  ∀ w ∈ waitProcessed s l, ∀ key ∈ w.2, key ∉ s.keyStore →
    (∀ e ∈ s.waiting.keyWaitingSockets.entries, w.1 ∉ e.2)
      ∧ (∀ t < workers threadNum, w.1 ∉ (s.pc t).stopping)
      ∧ ∀ t < workers threadNum, (s.pc t).waking ≠ some key

instance (threadNum : ℕ) (s : Server) (l : Label) : Decidable (FreshWait threadNum s l) :=
  inferInstanceAs (Decidable (∀ w ∈ waitProcessed s l, ∀ key ∈ w.2, key ∉ s.keyStore →
    (∀ e ∈ s.waiting.keyWaitingSockets.entries, w.1 ∉ e.2)
      ∧ (∀ t < workers threadNum, w.1 ∉ (s.pc t).stopping)
      ∧ ∀ t < workers threadNum, (s.pc t).waking ≠ some key))

/-! ### Registrations of one client -/

/-- How often a client stands in the list of a key. -/
def countOf (client : Client) (_ : Key) (clients : List Client) : ℕ := clients.count client

/-- All registrations of a client. -/
def registrations (client : Client) (sockets : AList fun _ : Key => List Client) : ℕ :=
  total (countOf client) sockets

theorem partAt_countOf (client : Client) (sockets : AList fun _ : Key => List Client) (key : Key) :
    partAt (countOf client) sockets key = (clientsOf sockets key).count client := by
  rw [partAt, clientsOf]
  cases sockets.lookup key with
  | none => rfl
  | some clients => rfl

theorem registrations_register (client client' : Client)
    (sockets : AList fun _ : Key => List Client) (key : Key) :
    registrations client (Waiting.register client' sockets key)
      = registrations client sockets + if client' = client then 1 else 0 := by
  have hinsert := total_insert (countOf client) sockets key (clientsOf sockets key ++ [client'])
  rw [partAt_countOf, countOf, List.count_append, List.count_singleton] at hinsert
  unfold registrations Waiting.register
  rw [show (sockets.lookup key).getD [] = clientsOf sockets key from rfl]
  simp only [beq_iff_eq] at hinsert
  omega

theorem registrations_foldl_register (client client' : Client) (keys : List Key)
    (sockets : AList fun _ : Key => List Client) :
    registrations client (keys.foldl (Waiting.register client') sockets)
      = registrations client sockets + if client' = client then keys.length else 0 := by
  induction keys generalizing sockets with
  | nil => simp
  | cons key keys ih =>
    rw [List.foldl_cons, ih, registrations_register, List.length_cons]
    split_ifs <;> omega

theorem mem_clientsOf_foldl_register {client client' : Client} {keys : List Key}
    {sockets : AList fun _ : Key => List Client} {key : Key} :
    client ∈ clientsOf (keys.foldl (Waiting.register client') sockets) key
      ↔ client ∈ clientsOf sockets key ∨ (client = client' ∧ key ∈ keys) := by
  rw [clientsOf_foldl_register, List.mem_append, List.mem_replicate, ← List.count_pos_iff (l := keys),
    Nat.pos_iff_ne_zero, and_comm (a := client = client')]

theorem registrations_eq_zero {client : Client} {sockets : AList fun _ : Key => List Client}
    (h : ∀ e ∈ sockets.entries, client ∉ e.2) : registrations client sockets = 0 := by
  rw [registrations, total, List.sum_eq_zero_iff_forall_eq_nat]
  intro n hn
  obtain ⟨e, he, rfl⟩ := List.mem_map.mp hn
  exact List.count_eq_zero.mpr (h e he)

/-- A client whose count exceeds its registrations for the woken key stays waiting. -/
theorem countDown_of_lt {nums : AList fun _ : Client => ℤ} {client : Client}
    (clients : List Client) (num : ℤ) (hnum : nums.lookup client = some num)
    (hlt : (clients.count client : ℤ) < num) :
    client ∉ (Waiting.countDown clients nums).1
      ∧ (Waiting.countDown clients nums).2.lookup client
          = some (num - clients.count client) := by
  induction clients generalizing nums num with
  | nil => simpa [Waiting.countDown] using hnum
  | cons first clients ih =>
    rw [List.count_cons] at hlt ⊢
    rw [Waiting.countDown]
    by_cases hfirst : first = client
    · subst hfirst
      simp only [BEq.rfl, if_true, Nat.cast_add, Nat.cast_one] at hlt ⊢
      rw [hnum, Option.getD_some, if_neg (by omega)]
      obtain ⟨hstop, hcount⟩ := ih (num - 1) (AList.lookup_insert nums) (by omega)
      exact ⟨hstop, by rw [hcount]; congr 1; omega⟩
    · have hbeq : (first == client) = false := beq_eq_false_iff_ne.mpr hfirst
      simp only [hbeq, Bool.false_eq_true, if_false, Nat.add_zero] at hlt ⊢
      have hne : client ≠ first := fun h => hfirst h.symm
      split_ifs
      · obtain ⟨hstop, hcount⟩ := ih num ((AList.lookup_erase_ne hne).trans hnum) hlt
        refine ⟨fun hmem => ?_, hcount⟩
        rcases List.mem_cons.mp hmem with h | h
        · exact hne h
        · exact hstop h
      · exact ih num ((AList.lookup_insert_ne hne).trans hnum) hlt

/-! ### The invariant -/

variable {threadNum : ℕ}

/-- The reply a thread will send when its handler has woken the waiters. -/
def pcResponse : Pc → Option StoreMessage
  | .wakeup _ _ response => some response
  | .notifying _ _ response => some response
  | _ => none

/-- What holds of a thread that is at `pc`. -/
structure PcOk (missing : Client → List Key) (pc : Pc) : Prop where
  /-- It is about to send `KEYS_STOP_WAITING` only to clients that miss nothing. -/
  stopping : ∀ client ∈ pc.stopping, missing client = []
  responding : ∀ job response, pc = .responding job response → response.mt = .wait →
    missing (job.fd, response.fd) = []
  /-- Handlers with a wakeup do not answer a `WAIT`. -/
  response : ∀ response, pcResponse pc = some response → response.mt ≠ .wait
  /-- A key about to be woken has been in the store. -/
  waking : ∀ key, pc.waking = some key → ∀ client, key ∉ missing client

/-- What connects the record with the threads and the two maps. -/
structure WaitInv (a : Audited) : Prop where
  threads : ∀ t, PcOk a.missing (a.server.pc t)
  /-- A client is registered for every key that is missing to it. -/
  registered : ∀ client, ∀ key ∈ a.missing client,
    client ∈ clientsOf a.server.waiting.keyWaitingSockets key
  /-- A client that misses a key is counted by its registrations. -/
  counted : ∀ client, a.missing client ≠ [] →
    a.server.waiting.socketWaitKeyNum.lookup client
      = some (registrations client a.server.waiting.keyWaitingSockets : ℤ)

theorem eq_nil_of_subset {missing missing' : List Key} (h : missing' ⊆ missing)
    (hnil : missing = []) : missing' = [] := by
  rw [hnil] at h
  exact List.eq_nil_of_subset_nil h

theorem lt_workers {t : ℕ} {fd : Fd} (h : worker threadNum fd = t) : t < workers threadNum := by
  rw [← h]
  exact Nat.mod_lt fd (Nat.lt_of_lt_of_le (by decide) (Nat.le_max_left 4 threadNum))

theorem fd?_isSome_of_stopping {pc : Pc} {client : Client} (h : client ∈ pc.stopping) :
    ∃ fd, pc.fd? = some fd := by
  cases pc with
  | notifying job clients response => exact ⟨job.fd, rfl⟩
  | _ => exact absurd h List.not_mem_nil

theorem fd?_isSome_of_waking {pc : Pc} {key : Key} (h : pc.waking = some key) :
    ∃ fd, pc.fd? = some fd := by
  cases pc with
  | wakeup job key response => exact ⟨job.fd, rfl⟩
  | _ => cases h

/-- Fewer missing keys are no harm. -/
theorem PcOk.mono {missing missing' : Client → List Key} {pc : Pc} (h : PcOk missing pc)
    (hsub : ∀ client, missing' client ⊆ missing client) : PcOk missing' pc where
  stopping client hc := eq_nil_of_subset (hsub client) (h.stopping client hc)
  responding job response hpc hmt := eq_nil_of_subset (hsub _) (h.responding job response hpc hmt)
  response := h.response
  waking key hkey client hmem := h.waking key hkey client (hsub client hmem)

/-- A thread that is neither in a handler nor about to reply. -/
def Plain : Pc → Prop
  | .wakeup _ _ _ => False
  | .notifying _ _ _ => False
  | .responding _ _ => False
  | _ => True

theorem PcOk.of_plain {missing : Client → List Key} {pc : Pc} (hplain : Plain pc) :
    PcOk missing pc := by
  refine ⟨?_, ?_, ?_, ?_⟩
  · cases pc with
    | notifying => exact absurd hplain id
    | _ => exact fun client hc => absurd hc List.not_mem_nil
  · rintro job response rfl
    exact absurd hplain id
  · cases pc with
    | wakeup => exact absurd hplain id
    | notifying => exact absurd hplain id
    | _ => rintro response ⟨⟩
  · cases pc with
    | wakeup => exact absurd hplain id
    | _ => rintro key ⟨⟩

theorem plain_afterInput (job : Job) (setEvents : EventMask) :
    Plain (afterInput job setEvents) := by
  unfold afterInput
  split_ifs <;> trivial

/-- One thread has moved. -/
theorem threads_of_setPc {missing missing' : Client → List Key} {s s' : Server} {t : ℕ} {pc : Pc}
    (hthreads : ∀ t, PcOk missing (s.pc t)) (hpc : s'.pc = (s.setPc t pc).pc)
    (hothers : ∀ t' ≠ t, PcOk missing (s.pc t') → PcOk missing' (s.pc t'))
    (hself : PcOk missing' pc) : ∀ t', PcOk missing' (s'.pc t') := by
  intro t'
  by_cases ht' : t' = t
  · rw [ht', hpc, setPc_pc_self]
    exact hself
  · rw [hpc, setPc_pc_of_ne ht']
    exact hothers t' ht' (hthreads t')

/-- A step that leaves the threads and the two maps alone. -/
theorem WaitInv.of_subset {a a' : Audited} (ha : WaitInv a)
    (hwaiting : a'.server.waiting = a.server.waiting) (hpc : a'.server.pc = a.server.pc)
    (hmissing : ∀ client, a'.missing client ⊆ a.missing client) : WaitInv a' where
  threads t := by
    rw [hpc]
    exact (ha.threads t).mono hmissing
  registered client key hkey := by
    rw [hwaiting]
    exact ha.registered client key (hmissing client hkey)
  counted client hne := by
    rw [hwaiting]
    exact ha.counted client fun h => hne (eq_nil_of_subset (hmissing client) h)

/-- A step that leaves the two maps alone, and after which no more keys are missing. -/
theorem WaitInv.of_move {a a' : Audited} {t : ℕ} {pc : Pc} (ha : WaitInv a)
    (hwaiting : a'.server.waiting = a.server.waiting)
    (hmissing : ∀ client, a'.missing client ⊆ a.missing client)
    (hpc : a'.server.pc = (a.server.setPc t pc).pc) (hself : PcOk a'.missing pc) :
    WaitInv a' where
  threads := threads_of_setPc ha.threads hpc (fun _ _ h => h.mono hmissing) hself
  registered client key hkey := by
    rw [hwaiting]
    exact ha.registered client key (hmissing client hkey)
  counted client hne := by
    rw [hwaiting]
    exact ha.counted client fun h => hne (eq_nil_of_subset (hmissing client) h)

/-! ### Steps -/

/-- After the handler of a request other than `WAIT`. -/
theorem pcOk_afterHandler {missing : Client → List Key} {job : Job} {handled : Handled}
    (hmt : handled.response.mt ≠ .wait)
    (hwakeup : ∀ key, handled.wakeup = some key → ∀ client, key ∉ missing client) :
    PcOk missing (afterHandler job handled) := by
  unfold afterHandler
  split
  next key hkey =>
    refine ⟨fun _ hc => absurd hc List.not_mem_nil, fun _ _ h => (by cases h),
      fun response h => ?_, fun key' h => ?_⟩
    · cases h
      exact hmt
    · cases h
      exact hwakeup key hkey
  next =>
    refine ⟨fun _ hc => absurd hc List.not_mem_nil, fun job' response h hwait => ?_,
      fun response h => (by cases h), fun key h => (by cases h)⟩
    cases h
    exact absurd hwait hmt

/-- A step that processes a `WAIT` which finds all its keys. -/
theorem WaitInv.of_wait_present {a : Audited} {t : ℕ} {job : Job} {s' : Server}
    {missing' : Client → List Key} {fd : Int32} {response : StoreMessage}
    (ha : WaitInv a) (hwaiting : s'.waiting = a.server.waiting)
    (hpc : s'.pc = (a.server.setPc t (.responding job response)).pc) (hfd : response.fd = fd)
    (hclient : missing' (job.fd, fd) = [])
    (hothers : ∀ client ≠ (job.fd, fd), missing' client ⊆ a.missing client) :
    WaitInv ⟨s', missing'⟩ := by
  have hsub : ∀ client, missing' client ⊆ a.missing client := by
    intro client
    by_cases h : client = (job.fd, fd)
    · rw [h, hclient]
      exact List.nil_subset _
    · exact hothers client h
  refine ha.of_move hwaiting hsub hpc ⟨fun _ hc => absurd hc List.not_mem_nil,
    fun job' response' h _ => ?_, fun _ h => (by cases h), fun _ h => (by cases h)⟩
  cases h
  rw [hfd]
  exact hclient

/-- A step that processes a fresh `WAIT` with the absent keys `keys`. -/
theorem WaitInv.of_wait_missing {a : Audited} {t : ℕ} {job : Job} {s' : Server}
    {missing' : Client → List Key} {fd : Int32} {keys : List Key} {response : StoreMessage}
    (ha : WaitInv a) (hthreads : ThreadInv threadNum a.server)
    (hserving : a.server.pc t = .serving job)
    (hwaiting : s'.waiting = a.server.waiting.setKeysWaitingSocket keys (job.fd, fd) keys.length)
    (hpc : s'.pc = (a.server.setPc t (.responding job response)).pc) (hmt : response.mt ≠ .wait)
    (hclient : missing' (job.fd, fd) = keys)
    (hothers : ∀ client ≠ (job.fd, fd), missing' client ⊆ a.missing client)
    (hfresh : ∀ e ∈ a.server.waiting.keyWaitingSockets.entries, (job.fd, fd) ∉ e.2)
    (hstop : ∀ t < workers threadNum, (job.fd, fd) ∉ (a.server.pc t).stopping)
    (hwaking : ∀ key ∈ keys, ∀ t < workers threadNum, (a.server.pc t).waking ≠ some key) :
    WaitInv ⟨s', missing'⟩ := by
  have howner : worker threadNum job.fd = t := hthreads.owner t job.fd (by rw [hserving]; rfl)
  refine ⟨threads_of_setPc ha.threads hpc (fun t' ht' h => ?_) ?_, fun client key hkey => ?_,
    fun client hne => ?_⟩
  · -- the other threads have nothing to do with this client or its missing keys
    refine ⟨fun client hc => ?_, fun job' response' hpc' hwait => ?_, h.response,
      fun key hkey client hmem => ?_⟩
    · have hne : client ≠ (job.fd, fd) := by
        rintro rfl
        obtain ⟨fd', hfd'⟩ := fd?_isSome_of_stopping hc
        exact hstop t' (lt_workers (hthreads.owner t' fd' hfd')) hc
      exact eq_nil_of_subset (hothers client hne) (h.stopping client hc)
    · have hne : (job'.fd, response'.fd) ≠ (job.fd, fd) := by
        intro heq
        have hown := hthreads.owner t' job'.fd (by rw [hpc']; rfl)
        rw [(Prod.mk.inj heq).1, howner] at hown
        exact ht' hown.symm
      exact eq_nil_of_subset (hothers _ hne) (h.responding job' response' hpc' hwait)
    · by_cases hc : client = (job.fd, fd)
      · have hmem' : key ∈ missing' client := hmem
        rw [hc, hclient] at hmem'
        obtain ⟨fd', hfd'⟩ := fd?_isSome_of_waking hkey
        exact hwaking key hmem' t' (lt_workers (hthreads.owner t' fd' hfd')) hkey
      · exact h.waking key hkey client (hothers client hc hmem)
  · refine ⟨fun _ hc => absurd hc List.not_mem_nil, fun job' response' h hwait => ?_,
      fun _ h => (by cases h), fun _ h => (by cases h)⟩
    cases h
    exact absurd hwait hmt
  · show client ∈ clientsOf s'.waiting.keyWaitingSockets key
    rw [hwaiting, Waiting.setKeysWaitingSocket, mem_clientsOf_foldl_register]
    by_cases hc : client = (job.fd, fd)
    · refine Or.inr ⟨hc, ?_⟩
      have hkey' : key ∈ missing' client := hkey
      rwa [hc, hclient] at hkey'
    · exact Or.inl (ha.registered client key (hothers client hc hkey))
  · show s'.waiting.socketWaitKeyNum.lookup client
      = some (registrations client s'.waiting.keyWaitingSockets : ℤ)
    rw [hwaiting, Waiting.setKeysWaitingSocket, registrations_foldl_register]
    by_cases hc : client = (job.fd, fd)
    · -- no registration was left, so the new ones are all there are
      rw [hc, AList.lookup_insert, registrations_eq_zero hfresh, if_pos rfl, Nat.zero_add]
    · rw [AList.lookup_insert_ne hc, if_neg (fun h => hc h.symm), Nat.add_zero]
      exact ha.counted client fun h => hne (eq_nil_of_subset (hothers client hc) h)

/-- A step that wakes the waiters of a key. -/
theorem WaitInv.of_wakeup {a : Audited} {t : ℕ} {job : Job} {key : Key} {response : StoreMessage}
    {s' : Server} {missing' : Client → List Key} (ha : WaitInv a)
    (hpc : a.server.pc t = .wakeup job key response)
    (hpc' : s'.pc = (a.server.setPc t
      (.notifying job (a.server.waiting.wakeupWaitingClients key).1 response)).pc)
    (hwaiting : s'.waiting = (a.server.waiting.wakeupWaitingClients key).2)
    (hmissing : ∀ client, missing' client ⊆ a.missing client) :
    WaitInv ⟨s', missing'⟩ := by
  have hok := ha.threads t
  obtain ⟨hstop, hsockets, hnums⟩ := wakeupWaitingClients_eq a.server.waiting key
  have hkey : ∀ client, key ∉ a.missing client := hok.waking key (by rw [hpc]; rfl)
  -- a client that misses a key has a registration besides those for the woken key
  have hcount : ∀ client, a.missing client ≠ [] →
      client ∉ (a.server.waiting.wakeupWaitingClients key).1
        ∧ (a.server.waiting.wakeupWaitingClients key).2.socketWaitKeyNum.lookup client
          = some (registrations client (a.server.waiting.keyWaitingSockets.erase key) : ℤ) := by
    intro client hne
    obtain ⟨key', hkey'⟩ := List.exists_mem_of_ne_nil _ hne
    have hdiff : key' ≠ key := by
      rintro rfl
      exact hkey client hkey'
    have hreg := ha.registered client key' hkey'
    have hpos : 0 < (clientsOf a.server.waiting.keyWaitingSockets key').count client :=
      List.count_pos_iff.mpr hreg
    have hle := partAt_add_partAt_le (countOf client) a.server.waiting.keyWaitingSockets hdiff
    have herase := total_erase (countOf client) a.server.waiting.keyWaitingSockets key
    rw [partAt_countOf, partAt_countOf] at hle
    rw [partAt_countOf] at herase
    have hdown := countDown_of_lt (clientsOf a.server.waiting.keyWaitingSockets key) _
      (ha.counted client hne) (by unfold registrations; omega)
    rw [hstop, hnums, hdown.2]
    refine ⟨hdown.1, ?_⟩
    unfold registrations
    congr 1
    omega
  refine ⟨threads_of_setPc ha.threads hpc' (fun _ _ h => h.mono hmissing) ?_,
    fun client key' hkey' => ?_, fun client hne => ?_⟩
  · refine ⟨fun client hc => ?_, fun _ _ h => (by cases h), fun response' h => ?_, fun _ h => (by cases h)⟩
    · refine eq_nil_of_subset (hmissing client) ?_
      by_contra hne
      exact (hcount client hne).1 hc
    · exact hok.response response' (by rw [hpc]; exact h)
  · show client ∈ clientsOf s'.waiting.keyWaitingSockets key'
    have hdiff : key' ≠ key := by
      rintro rfl
      exact hkey client (hmissing client hkey')
    rw [hwaiting, hsockets, clientsOf, AList.lookup_erase_ne hdiff]
    exact ha.registered client key' (hmissing client hkey')
  · show s'.waiting.socketWaitKeyNum.lookup client
      = some (registrations client s'.waiting.keyWaitingSockets : ℤ)
    rw [hwaiting, hsockets]
    exact (hcount client fun h => hne (eq_nil_of_subset (hmissing client) h)).2

/-- The record after a step that processes no `WAIT`. -/
theorem filter_subset_missing (a : Audited) (s : Server) (client : Client) :
    ((a.missing client).filter fun key => decide (key ∉ s.keyStore)) ⊆ a.missing client :=
  List.filter_subset_self _

/-- What the handler of a `WAIT` has decided. -/
theorem afterHandler_wait {keyStore : KeyStore} {request : StoreMessage} {handled : Handled}
    (h : HandlerSpec keyStore request handled) (hmt : request.mt = .wait) (job : Job) :
    afterHandler job handled = .responding job handled.response := by
  rw [afterHandler, (h.wait hmt).2.1]

theorem waitInv_handle {a : Audited} {t : ℕ} {job : Job} {request : StoreMessage}
    {requests : List StoreMessage} {handled : Handled} {s' : Server} (ha : WaitInv a)
    (hthreads : ThreadInv threadNum a.server) (hfresh : FreshWait threadNum a.server (.serve t))
    (hpc : a.server.pc t = .serving job)
    (hreq : (a.server.ctx job.fd).requests = request :: requests)
    (hhandled : processRequest a.server.keyStore request = some handled)
    (hstore : s'.keyStore = handled.keyStore)
    (hpc' : s'.pc = (a.server.setPc t (afterHandler job handled)).pc)
    (hwaiting : s'.waiting = match handled.waitKeys with
      | some keys => a.server.waiting.setKeysWaitingSocket keys (job.fd, request.fd) keys.length
      | none => a.server.waiting) :
    WaitInv ⟨s', fun client =>
      ((match waitProcessed a.server (.serve t) with
        | some (client, keys) => Function.update a.missing client keys
        | none => a.missing) client).filter fun key => decide (key ∉ s'.keyStore)⟩ := by
  have hspec := processRequest_spec hhandled
  by_cases hmt : request.mt = .wait
  · have hproc : waitProcessed a.server (.serve t) = some ((job.fd, request.fd), request.keys) := by
      simp only [waitProcessed, hpc, hreq, hmt, if_true]
    obtain ⟨hsame, -, hpresent⟩ := hspec.wait hmt
    rw [afterHandler_wait hspec hmt] at hpc'
    rw [hsame] at hstore
    simp only [hproc, hstore]
    have hothers : ∀ client ≠ (job.fd, request.fd),
        ((Function.update a.missing (job.fd, request.fd) request.keys client).filter
          fun key => decide (key ∉ a.server.keyStore)) ⊆ a.missing client := by
      intro client hne
      rw [Function.update_of_ne hne]
      exact List.filter_subset_self _
    cases hkeys : handled.waitKeys with
    | none =>
      rw [hkeys] at hwaiting
      by_cases hresponse : handled.response.mt = .wait
      · refine ha.of_wait_present hwaiting hpc' (hspec.response_wait hresponse).2.2 ?_ hothers
        rw [Function.update_self, List.filter_eq_nil_iff]
        intro key hkey
        simpa using hpresent hkeys key hkey
      · -- the handler answers every such `WAIT` with its own type
        exact absurd (hspec.wait_response hmt hkeys) hresponse
    | some keys =>
      rw [hkeys] at hwaiting
      obtain ⟨-, hfilter, hne⟩ := hspec.waitKeys keys hkeys
      obtain ⟨key, hkey⟩ := List.exists_mem_of_ne_nil keys hne
      have habsent : ∀ key ∈ keys, key ∈ request.keys ∧ key ∉ a.server.keyStore := by
        intro key hkey
        rw [hfilter, List.mem_filter] at hkey
        exact ⟨hkey.1, by simpa using hkey.2⟩
      have hf := fun key hkey =>
        hfresh _ hproc key (habsent key hkey).1 (habsent key hkey).2
      refine ha.of_wait_missing hthreads hpc hwaiting hpc' (fun h => ?_) ?_ hothers (hf key hkey).1
        (hf key hkey).2.1 fun key hkey => (hf key hkey).2.2
      · rw [(hspec.response_wait h).2.1] at hkeys
        cases hkeys
      · rw [Function.update_self, hfilter]
  · have hproc : waitProcessed a.server (.serve t) = none := by
      simp only [waitProcessed, hpc, hreq, hmt, if_false]
    have hkeys : handled.waitKeys = none := by
      cases hkeys : handled.waitKeys with
      | none => rfl
      | some keys => exact absurd (hspec.waitKeys keys hkeys).1 hmt
    rw [hkeys] at hwaiting
    simp only [hproc]
    refine ha.of_move hwaiting (filter_subset_missing a s') hpc' (pcOk_afterHandler ?_ ?_)
    · exact fun h => hmt (hspec.response_wait h).1
    · -- the key just inserted is missing to nobody
      intro key hkey client hmem
      have hmem' := (List.mem_filter.mp hmem).2
      rw [hstore] at hmem'
      exact absurd (hspec.wakeup_mem key hkey) (by simpa using hmem')

theorem waitInv_step {a a' : Audited} {l : Label} (ha : WaitInv a)
    (hthreads : ThreadInv threadNum a.server) (hfresh : FreshWait threadNum a.server l)
    (h : audit threadNum a l = some a') : WaitInv a' ∧ ThreadInv threadNum a'.server := by
  rw [audit, Option.map_eq_some_iff] at h
  obtain ⟨s', hnext, rfl⟩ := h
  obtain ⟨out, hstep⟩ := step_of_next hnext
  refine ⟨?_, threadInv_step hthreads hstep⟩
  -- a thread that goes on to a point without wakeup and without reply
  have plain : ∀ {t : ℕ} {pc : Pc} {s' : Server}, s'.waiting = a.server.waiting →
      s'.pc = (a.server.setPc t pc).pc → Plain pc →
      WaitInv ⟨s', fun client =>
        (a.missing client).filter fun key => decide (key ∉ s'.keyStore)⟩ :=
    fun hwaiting hpc hplain =>
      ha.of_move hwaiting (filter_subset_missing a _) hpc (.of_plain hplain)
  cases hstep with
  | connect => exact ha.of_subset rfl rfl (filter_subset_missing a _)
  | hangUp => exact ha.of_subset rfl rfl (filter_subset_missing a _)
  | receive => exact plain rfl rfl trivial
  | noInput => exact plain rfl rfl (plain_afterInput _ _)
  | handle hpc hreq hhandled => exact waitInv_handle ha hthreads hfresh hpc hreq hhandled rfl rfl rfl
  | @served t job hpc hreq =>
    have hproc : waitProcessed a.server (.serve t) = none := by
      simp only [waitProcessed, hpc, hreq]
    simp only [hproc]
    exact plain rfl rfl (plain_afterInput _ _)
  | wakeup hpc => exact ha.of_wakeup hpc rfl rfl (filter_subset_missing a _)
  | @notify t accepted job client clients response hpc =>
    have hok := ha.threads t
    rw [hpc] at hok
    refine ha.of_move rfl (filter_subset_missing a _) rfl ?_
    have hrest : PcOk a.missing (.notifying job clients response) :=
      ⟨fun client' hc => hok.stopping client' (List.mem_cons_of_mem client hc),
        fun _ _ h => (by cases h), hok.response, fun _ h => (by cases h)⟩
    exact hrest.mono (filter_subset_missing a _)
  | @notified t accepted job response hpc =>
    have hok := ha.threads t
    rw [hpc] at hok
    refine ha.of_move rfl (filter_subset_missing a _) rfl
      ⟨fun _ hc => absurd hc List.not_mem_nil, fun job' response' h hmt => ?_,
        fun _ h => (by cases h), fun _ h => (by cases h)⟩
    cases h
    exact absurd hmt (hok.response response rfl)
  | skip => exact plain rfl rfl trivial
  | respond => exact plain rfl rfl trivial
  | flushed => exact plain rfl rfl (by split_ifs <;> trivial)
  | flush => exact plain rfl rfl trivial
  | unchanged => exact plain rfl rfl trivial
  | modify => exact plain rfl rfl trivial
  | modifyFail => exact plain rfl rfl trivial

/-! ### Wait completeness -/

/-- In every run in which each `WAIT` with a missing key is fresh: when the server sends
`KEYS_STOP_WAITING` to a client, every key listed in that client's most recent `WAIT` has been in
the store since. -/
theorem missing_eq_nil_of_stopSent {ls : List Label} {a : Audited} {l : Label} {client : Client}
    (hfresh : Machine.Guarded (audit threadNum) (fun a => FreshWait threadNum a.server) {} ls)
    (hrun : Machine.run (audit threadNum) {} ls = some a)
    (hsent : stopSent a.server l = some client) : a.missing client = [] := by
  have hinv : WaitInv a ∧ ThreadInv threadNum a.server := by
    refine Machine.guarded_run_induction
      (P := fun a => WaitInv a ∧ ThreadInv threadNum a.server)
      (fun a l a' ha hf h => waitInv_step ha.1 ha.2 hf h) ⟨?_, threadInv_init⟩ hfresh hrun
    exact ⟨fun t => .of_plain trivial, fun _ _ h => absurd h List.not_mem_nil,
      fun _ h => absurd rfl h⟩
  unfold stopSent at hsent
  split at hsent
  next t accepted => exact (hinv.1.threads t).stopping client (List.mem_of_mem_head? hsent)
  next t =>
    split at hsent
    next job response hpc =>
      split_ifs at hsent with hmt
      cases hsent
      exact (hinv.1.threads t).responding job response hpc hmt
    next => cases hsent
  next => cases hsent

/-- With four threads: one request of `fd` is received, handled without a wakeup and answered. -/
def requestLabels (fd : Fd) (request : StoreMessage) : List Label :=
  [.event fd .input [pack request], .serve (worker 4 fd), .respond (worker 4 fd),
    .flush (worker 4 fd) 100, .flush (worker 4 fd) 0, .serve (worker 4 fd),
    .finish (worker 4 fd) true]

/-- With four threads: `fd` sets a new key and its waiters are looked up. -/
def setLabels (fd : Fd) (key : Key) : List Label :=
  [.event fd .input [pack { mt := .set, keys := [key], values := [[]] }], .serve (worker 4 fd),
    .wakeup (worker 4 fd)]

/-- With four threads: the rest of a `SET` that wakes nobody. -/
def setDoneLabels (fd : Fd) : List Label :=
  [.notify (worker 4 fd) 0, .respond (worker 4 fd), .flush (worker 4 fd) 100,
    .flush (worker 4 fd) 0, .serve (worker 4 fd), .finish (worker 4 fd) true]

/-- A client waits for `a`, and another one sets it. -/
def freshWait : List Label :=
  [Label.connect 4, .connect 5] ++ requestLabels 4 { mt := .wait, keys := [[97]] } ++ setLabels 5 [97]

theorem missing_eq_nil_freshWait :
    ∃ a, Machine.run (audit 4) {} freshWait = some a
      ∧ stopSent a.server (.notify 1 100) = some (4, 0) ∧ a.missing (4, 0) = [] := by
  have hguard : Machine.Guarded (audit 4) (fun a => FreshWait 4 a.server) {} freshWait := by
    decide +kernel
  have hrun : (Machine.run (audit 4) {} freshWait).map
      (fun a => stopSent a.server (.notify 1 100)) = some (some (4, 0)) := by
    decide +kernel
  rw [Option.map_eq_some_iff] at hrun
  obtain ⟨a, ha, hsent⟩ := hrun
  exact ⟨a, ha, hsent, missing_eq_nil_of_stopSent hguard ha hsent⟩

/-- A client waits for `a`, gives up, and waits for `b` and `c`; then `a` and `b` are set. -/
def abandonedWait : List Label :=
  [Label.connect 4, .connect 5] ++ requestLabels 4 { mt := .wait, keys := [[97]] }
    ++ requestLabels 4 { mt := .wait, keys := [[98], [99]] }
    ++ setLabels 5 [97] ++ setDoneLabels 5 ++ setLabels 5 [98]

/-- The registration left for `a` has counted down the second `WAIT`: the client is told to stop
waiting although `c` was never set. -/
theorem missing_ne_nil_of_abandoned :
    ∃ a, Machine.run (audit 4) {} abandonedWait = some a
      ∧ stopSent a.server (.notify 1 100) = some (4, 0) ∧ a.missing (4, 0) = [[99]] := by
  have hrun : (Machine.run (audit 4) {} abandonedWait).map
      (fun a => (stopSent a.server (.notify 1 100), a.missing (4, 0)))
        = some (some (4, 0), [[99]]) := by
    decide +kernel
  rw [Option.map_eq_some_iff] at hrun
  obtain ⟨a, ha, hsent⟩ := hrun
  exact ⟨a, ha, (Prod.mk.inj hsent).1, (Prod.mk.inj hsent).2⟩

end TorchNpu.Store.Server

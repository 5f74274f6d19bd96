/-
  Descriptor reuse: when is a connection on its own?

  `connection_step`: whatever the server does, the part of its state that belongs to `fd` moves as a
  `Connection` does on what it sees, and the bytes sent to `fd` are those the `Connection` sends.
  So all that isolation takes is that a descriptor is clean when it is opened again
  (`sends_of_clean_run`).  `CleanClose` is the condition that a close leaves nothing behind, stated
  on the state before it.  The hang-up branch of `ProcessClientEvent` sets `fd = -1` before
  `ctx.erase(fd)`, so buffered bytes do survive (`not_isolated_of_leftover`).
-/
import TorchNpu.Store.Spec.Server
import TorchNpu.Store.Connection

namespace TorchNpu.Store

/-! ### The registered events play no part in the buffers -/

namespace ClientIoContext

def withEvents (ctx : ClientIoContext) (events : EventMask) : ClientIoContext :=
  { ctx with currentEvents := events }

theorem expendRecBuf_withEvents (ctx : ClientIoContext) (events : EventMask) :
    (ctx.withEvents events).expendRecBuf = ctx.expendRecBuf.withEvents events := by
  unfold expendRecBuf withEvents
  split_ifs <;> rfl

theorem readLoop_withEvents (fuel : ℕ) (ctx : ClientIoContext) (chunk : Bytes)
    (events : EventMask) :
    readLoop fuel (ctx.withEvents events) chunk = (readLoop fuel ctx chunk).withEvents events := by
  induction fuel generalizing ctx chunk with
  | zero => rfl
  | succ fuel ih =>
    rw [readLoop, readLoop]
    split_ifs
    · rfl
    · rw [expendRecBuf_withEvents]
      exact ih (ctx.expendRecBuf.readInto (chunk.take ctx.expendRecBuf.room)) _

theorem foldl_readChunk_withEvents (chunks : List Bytes) (ctx : ClientIoContext)
    (events : EventMask) :
    chunks.foldl readChunk (ctx.withEvents events)
      = (chunks.foldl readChunk ctx).withEvents events := by
  induction chunks generalizing ctx with
  | nil => rfl
  | cons chunk chunks ih =>
    rw [List.foldl_cons, List.foldl_cons, readChunk, readChunk, readLoop_withEvents, ih]

theorem extract_withEvents (fuel : ℕ) (ctx : ClientIoContext) (request : StoreMessage)
    (events : EventMask) :
    extract fuel (ctx.withEvents events) request
      = (extract fuel ctx request).map fun ctx => ctx.withEvents events := by
  induction fuel generalizing ctx request with
  | zero => rfl
  | succ fuel ih =>
    rw [extract, extract]
    show (unpack ctx.recBuf request).value >>= _ = _
    cases (unpack ctx.recBuf request).value with
    | none => rfl
    | some result =>
      simp only [Option.bind_eq_bind, Option.bind_some]
      split_ifs
      · exact ih { ctx with
          requests := ctx.requests ++ [result.2]
          recBuf := ctx.recBuf.drop result.1.toNat
          recSize := ctx.recSize - UInt32.ofNat result.1.toNat } _
      · rfl

theorem receiveData_withEvents (ctx : ClientIoContext) (chunks : List Bytes) (events : EventMask) :
    (ctx.withEvents events).receiveData chunks
      = (ctx.receiveData chunks).map fun ctx => ctx.withEvents events := by
  unfold receiveData
  rw [foldl_readChunk_withEvents, expendRecBuf_withEvents]
  exact extract_withEvents _ (chunks.foldl readChunk ctx).expendRecBuf.resizeRecBuf {} events

end ClientIoContext

namespace Server

variable {threadNum : ℕ}

/-! ### One socket among many -/

theorem onSocket_cons_self (fd : Fd) (workerFd : Int32) (clients : List Client) :
    onSocket fd ((fd, workerFd) :: clients) = workerFd :: onSocket fd clients := by
  simp [onSocket]

theorem onSocket_cons_of_ne {fd : Fd} {client : Client} (h : client.1 ≠ fd)
    (clients : List Client) : onSocket fd (client :: clients) = onSocket fd clients := by
  simp [onSocket, h]

/-- Counting down the clients of a key counts down those of each socket on its own. -/
theorem countDown_onSocket (fd : Fd) (clients : List Client) (nums : AList fun _ : Client => ℤ) :
    Connection.countDown (onSocket fd clients) (fun workerFd => nums.lookup (fd, workerFd))
      = (onSocket fd (Waiting.countDown clients nums).1,
        fun workerFd => (Waiting.countDown clients nums).2.lookup (fd, workerFd)) := by
  induction clients generalizing nums with
  | nil => rfl
  | cons client clients ih =>
    obtain ⟨socket, workerFd⟩ := client
    rw [Waiting.countDown]
    by_cases hsocket : socket = fd
    · subst hsocket
      rw [onSocket_cons_self, Connection.countDown]
      split_ifs
      · have herase : Function.update (fun workerFd => nums.lookup (socket, workerFd)) workerFd none
            = fun workerFd' => (nums.erase (socket, workerFd)).lookup (socket, workerFd') := by
          funext workerFd'
          by_cases h : workerFd' = workerFd
          · rw [h, Function.update_self, AList.lookup_erase]
          · rw [Function.update_of_ne h, AList.lookup_erase_ne (by simpa using h)]
        dsimp only
        rw [herase, ih, onSocket_cons_self]
      · set num := (nums.lookup (socket, workerFd)).getD 0 - 1
        have hinsert :
            Function.update (fun workerFd => nums.lookup (socket, workerFd)) workerFd (some num)
              = fun workerFd' => (nums.insert (socket, workerFd) num).lookup (socket, workerFd') := by
          funext workerFd'
          by_cases h : workerFd' = workerFd
          · rw [h, Function.update_self, AList.lookup_insert]
          · rw [Function.update_of_ne h, AList.lookup_insert_ne (by simpa using h)]
        rw [hinsert, ih]
    · rw [onSocket_cons_of_ne hsocket]
      have hother : ∀ workerFd' : Int32, (fd, workerFd') ≠ (socket, workerFd) :=
        fun workerFd' h => hsocket (Prod.mk.inj h).1.symm
      split_ifs
      · have herase : (fun workerFd' => nums.lookup (fd, workerFd'))
            = fun workerFd' => (nums.erase (socket, workerFd)).lookup (fd, workerFd') := by
          funext workerFd'
          rw [AList.lookup_erase_ne (hother workerFd')]
        dsimp only
        rw [herase, ih, onSocket_cons_of_ne hsocket]
      · have hinsert : ∀ num : ℤ, (fun workerFd' => nums.lookup (fd, workerFd'))
            = fun workerFd' => (nums.insert (socket, workerFd) num).lookup (fd, workerFd') := by
          intro num
          funext workerFd'
          rw [AList.lookup_insert_ne (hother workerFd')]
        rw [hinsert, ih]

theorem ctx_setCtx_self (s : Server) (fd : Fd) (ctx : ClientIoContext) :
    (s.setCtx fd ctx).ctx fd = ctx := by
  show ((s.clientCtx.insert fd ctx).lookup fd).getD {} = ctx
  rw [AList.lookup_insert]
  rfl

theorem ctx_setCtx_of_ne {s : Server} {fd fd' : Fd} (h : fd ≠ fd') (ctx : ClientIoContext) :
    (s.setCtx fd' ctx).ctx fd = s.ctx fd := by
  show ((s.clientCtx.insert fd' ctx).lookup fd).getD {} = _
  rw [AList.lookup_insert_ne h]
  rfl

theorem phaseOf_of_ne {fd : Fd} {pc : Pc} (h : pc.fd? ≠ some fd) : phaseOf fd pc = .away := by
  unfold phaseOf
  exact if_neg h

/-- A thread that works for other connections before and after a step. -/
theorem phaseOf_setPc_of_ne {s : Server} {fd : Fd} {t : ℕ} {pc : Pc} (t' : ℕ)
    (hold : (s.pc t).fd? ≠ some fd) (hnew : pc.fd? ≠ some fd) :
    phaseOf fd ((s.setPc t pc).pc t') = phaseOf fd (s.pc t') := by
  by_cases ht : t' = t
  · rw [ht, setPc_pc_self, phaseOf_of_ne hold, phaseOf_of_ne hnew]
  · rw [setPc_pc_of_ne ht]

theorem stopping_setPc {s : Server} {t : ℕ} {pc : Pc} (hstop : pc.stopping = (s.pc t).stopping)
    (t' : ℕ) : ((s.setPc t pc).pc t').stopping = (s.pc t').stopping := by
  by_cases ht : t' = t
  · rw [ht, setPc_pc_self, hstop]
  · rw [setPc_pc_of_ne ht]

/-- A step that neither touches the connection on `fd` nor the maps of waiting clients. -/
theorem connection_eq_of_other {s s' : Server} {fd : Fd} {t : ℕ} {pc : Pc}
    (hreg : fd ∈ s'.registered ↔ fd ∈ s.registered) (hctx : s'.ctx fd = s.ctx fd)
    (hwaiting : s'.waiting = s.waiting) (hpc : s'.pc = (s.setPc t pc).pc)
    (hold : (s.pc t).fd? ≠ some fd) (hnew : pc.fd? ≠ some fd)
    (hstop : pc.stopping = (s.pc t).stopping) :
    s'.connection threadNum fd = s.connection threadNum fd := by
  unfold connection
  rw [hctx, hwaiting, hpc]
  ext1
  · exact decide_eq_decide.mpr hreg
  · rfl
  · rfl
  · rfl
  · funext t'
    show onSocket fd _ = onSocket fd _
    rw [stopping_setPc hstop]
  · exact phaseOf_setPc_of_ne _ hold hnew

/-- A step of the connection's own thread that does not touch the maps of waiting clients. -/
theorem connection_eq_of_own {s s' : Server} {fd : Fd} {t : ℕ} {pc : Pc} (ctx : ClientIoContext)
    (howner : worker threadNum fd = t)
    (hreg : fd ∈ s'.registered ↔ fd ∈ s.registered) (hctx : s'.ctx fd = ctx)
    (hwaiting : s'.waiting = s.waiting) (hpc : s'.pc = (s.setPc t pc).pc)
    (hstop : pc.stopping = (s.pc t).stopping) :
    s'.connection threadNum fd = { s.connection threadNum fd with
      io := ctx.withEvents .all, phase := phaseOf fd pc } := by
  unfold connection
  rw [hctx, hwaiting, hpc, howner, setPc_pc_self]
  ext1
  · exact decide_eq_decide.mpr hreg
  · rfl
  · rfl
  · rfl
  · funext t'
    show onSocket fd _ = onSocket fd _
    rw [stopping_setPc hstop]
  · rfl

/-! ### Simulation -/

/-- The connection takes the step it sees, if it sees one, and sends `bytes`. -/
def Follows (c c' : Connection) (o : Option Observation) (bytes : Bytes) : Prop :=
  match o with
  | some o => c.step o = some (c', bytes)
  | none => c' = c ∧ bytes = []

theorem phaseOf_afterInput (job : Job) (setEvents : EventMask) :
    phaseOf job.fd (afterInput job setEvents) = Connection.afterInput job.epollOut := by
  unfold afterInput Connection.afterInput
  split_ifs <;> simp [phaseOf, Pc.fd?]

theorem phaseOf_afterHandler (job : Job) (handled : Handled) :
    phaseOf job.fd (afterHandler job handled)
      = Connection.afterHandler job.epollOut handled := by
  unfold afterHandler Connection.afterHandler
  cases handled.wakeup with
  | some key => simp [phaseOf, Pc.fd?]
  | none => simp [phaseOf, Pc.fd?]

theorem stopping_afterInput (job : Job) (setEvents : EventMask) :
    (afterInput job setEvents).stopping = [] := by
  unfold afterInput
  split_ifs <;> rfl

theorem stopping_afterHandler (job : Job) (handled : Handled) :
    (afterHandler job handled).stopping = [] := by
  unfold afterHandler
  split <;> rfl

/-- The phase of the connection a thread is working on. -/
theorem phase_connection {s : Server} {fd : Fd} {t : ℕ} {pc : Pc}
    (howner : worker threadNum fd = t) (hpc : s.pc t = pc) :
    (s.connection threadNum fd).phase = phaseOf fd pc := by
  show phaseOf fd (s.pc (worker threadNum fd)) = _
  rw [howner, hpc]

theorem onSocket_replicate_self (fd : Fd) (workerFd : Int32) (n : ℕ) :
    onSocket fd (List.replicate n (fd, workerFd)) = List.replicate n workerFd := by
  induction n with
  | zero => rfl
  | succ n ih => rw [List.replicate_succ, onSocket_cons_self, ih, List.replicate_succ]

theorem onSocket_replicate_of_ne {fd : Fd} {client : Client} (h : client.1 ≠ fd) (n : ℕ) :
    onSocket fd (List.replicate n client) = [] := by
  induction n with
  | zero => rfl
  | succ n ih => rw [List.replicate_succ, onSocket_cons_of_ne h, ih]

theorem onSocket_append (fd : Fd) (clients clients' : List Client) :
    onSocket fd (clients ++ clients') = onSocket fd clients ++ onSocket fd clients' :=
  List.filterMap_append

/-- Registering a client of `fd`. -/
theorem connection_register_self {s : Server} {fd : Fd} {workerFd : Int32}
    {waitKeys : Option (List Key)} {s' : Server}
    (hreg : s'.registered = s.registered) (hctx : s'.clientCtx = s.clientCtx) (hpc : s'.pc = s.pc)
    (hwaiting : s'.waiting = match waitKeys with
      | some keys => s.waiting.setKeysWaitingSocket keys (fd, workerFd) keys.length
      | none => s.waiting) :
    s'.connection threadNum fd = (s.connection threadNum fd).register workerFd waitKeys := by
  unfold connection ctx
  rw [hreg, hctx, hpc, hwaiting]
  cases waitKeys with
  | none => rfl
  | some keys =>
    ext1
    · rfl
    · rfl
    · funext key
      show onSocket fd (clientsOf (keys.foldl (Waiting.register (fd, workerFd)) _) key) = _
      rw [clientsOf_foldl_register, onSocket_append, onSocket_replicate_self]
      rfl
    · funext workerFd'
      show (s.waiting.socketWaitKeyNum.insert (fd, workerFd) (keys.length : ℤ)).lookup (fd, workerFd')
        = Function.update (fun workerFd => s.waiting.socketWaitKeyNum.lookup (fd, workerFd))
          workerFd (some (keys.length : ℤ)) workerFd'
      by_cases h : workerFd' = workerFd
      · rw [h, Function.update_self, AList.lookup_insert]
      · rw [Function.update_of_ne h, AList.lookup_insert_ne (by simpa using h)]
    · rfl
    · rfl

/-- Registering a client of another socket. -/
theorem connection_register_of_ne {s : Server} {fd : Fd} {client : Client}
    {waitKeys : Option (List Key)} {s' : Server} (hne : client.1 ≠ fd)
    (hreg : s'.registered = s.registered) (hctx : s'.clientCtx = s.clientCtx) (hpc : s'.pc = s.pc)
    (hwaiting : s'.waiting = match waitKeys with
      | some keys => s.waiting.setKeysWaitingSocket keys client keys.length
      | none => s.waiting) :
    s'.connection threadNum fd = s.connection threadNum fd := by
  unfold connection ctx
  rw [hreg, hctx, hpc, hwaiting]
  cases waitKeys with
  | none => rfl
  | some keys =>
    ext1
    · rfl
    · rfl
    · funext key
      show onSocket fd (clientsOf (keys.foldl (Waiting.register client) _) key) = _
      rw [clientsOf_foldl_register, onSocket_append, onSocket_replicate_of_ne hne, List.append_nil]
      rfl
    · funext workerFd'
      show (s.waiting.socketWaitKeyNum.insert client (keys.length : ℤ)).lookup (fd, workerFd') = _
      rw [AList.lookup_insert_ne fun h => hne (by rw [← h])]
    · rfl
    · rfl

/-- Waking a key does to the connection on `fd` what its own count-down does. -/
theorem connection_wakeup {s s' : Server} {fd : Fd} {t : ℕ} {job : Job} {key : Key}
    {response : StoreMessage} (hs : ThreadInv threadNum s)
    (hpc : s.pc t = .wakeup job key response) (hreg : s'.registered = s.registered)
    (hctx : s'.clientCtx = s.clientCtx)
    (hwaiting : s'.waiting = (s.waiting.wakeupWaitingClients key).2)
    (hpc' : s'.pc
      = (s.setPc t (.notifying job (s.waiting.wakeupWaitingClients key).1 response)).pc) :
    s'.connection threadNum fd
      = (s.connection threadNum fd).wake (decide (job.fd = fd)) t key := by
  obtain ⟨hstop, hsockets, hnums⟩ := wakeupWaitingClients_eq s.waiting key
  have hdown := countDown_onSocket fd (clientsOf s.waiting.keyWaitingSockets key)
    s.waiting.socketWaitKeyNum
  rw [← hstop, ← hnums] at hdown
  have howner := hs.owner t job.fd (by rw [hpc]; rfl)
  have hdown' : Connection.countDown ((s.connection threadNum fd).waitingFor key)
      (s.connection threadNum fd).counts = _ := hdown
  rw [Connection.wake, hdown']
  unfold connection ctx
  rw [hreg, hctx, hpc', hwaiting]
  ext1
  · rfl
  · rfl
  · funext key'
    dsimp only
    by_cases h : key' = key
    · rw [h, Function.update_self, hsockets, AList.lookup_erase]
      rfl
    · rw [Function.update_of_ne h, hsockets, AList.lookup_erase_ne h]
  · rfl
  · funext t'
    dsimp only
    by_cases h : t' = t
    · rw [h, Function.update_self, setPc_pc_self]
      rfl
    · rw [Function.update_of_ne h, setPc_pc_of_ne h]
  · dsimp only
    by_cases hfd : job.fd = fd
    · subst hfd
      rw [howner, setPc_pc_self, hpc]
      simp [phaseOf, Pc.fd?, Connection.afterWakeup]
    · have hold : (s.pc t).fd? ≠ some fd := by
        rw [hpc]
        simpa [Pc.fd?] using hfd
      rw [phaseOf_setPc_of_ne _ hold (by simpa [Pc.fd?] using hfd), decide_eq_false hfd]
      unfold Connection.afterWakeup
      split
      next h => rw [h]; rfl
      next => rfl

/-- A job for another connection. -/
theorem fd?_ne {pc : Pc} {fd fd' : Fd} (hpc : pc.fd? = some fd') (hne : fd' ≠ fd) :
    pc.fd? ≠ some fd := by
  rw [hpc]
  exact fun h => hne (Option.some.inj h)

/-- A step of the connection's own thread that leaves the waiting clients alone. -/
theorem follows_own {s s' : Server} {fd : Fd} {l : Label} {out : Output} {t : ℕ} {pc : Pc}
    (ctx : ClientIoContext) (o : Observation) (hobs : s.observe fd l = some o)
    (howner : worker threadNum fd = t) (hctx : s'.ctx fd = ctx)
    (hpc : s'.pc = (s.setPc t pc).pc) (hwaiting : s'.waiting = s.waiting)
    (hreg : fd ∈ s'.registered ↔ fd ∈ s.registered) (hstop : pc.stopping = (s.pc t).stopping)
    (hstep : (s.connection threadNum fd).step o = some ({ s.connection threadNum fd with
      io := ctx.withEvents .all, phase := phaseOf fd pc }, bytesTo fd out)) :
    Follows (s.connection threadNum fd) (s'.connection threadNum fd) (s.observe fd l)
      (bytesTo fd out) := by
  rw [hobs, Follows, connection_eq_of_own ctx howner hreg hctx hwaiting hpc hstop]
  exact hstep

/-- A step of another connection's thread that leaves the waiting clients alone. -/
theorem follows_other {s s' : Server} {fd : Fd} {l : Label} {out : Output} {t : ℕ} {pc : Pc}
    (hobs : s.observe fd l = none) (hbytes : bytesTo fd out = [])
    (hctx : s'.ctx fd = s.ctx fd) (hpc : s'.pc = (s.setPc t pc).pc)
    (hwaiting : s'.waiting = s.waiting) (hreg : fd ∈ s'.registered ↔ fd ∈ s.registered)
    (hstop : pc.stopping = (s.pc t).stopping) (hold : (s.pc t).fd? ≠ some fd)
    (hnew : pc.fd? ≠ some fd) :
    Follows (s.connection threadNum fd) (s'.connection threadNum fd) (s.observe fd l)
      (bytesTo fd out) := by
  rw [hobs]
  exact ⟨connection_eq_of_other hreg hctx hwaiting hpc hold hnew hstop, hbytes⟩

/-- A step of a thread with its connection `fd'`, seen from any connection. -/
theorem follows_job {s s' : Server} {l : Label} {out : Output} {t : ℕ} {pc : Pc} {fd' : Fd}
    (fd : Fd) (o : Observation) (ctx : ClientIoContext) (pc' : Pc) (hs : ThreadInv threadNum s)
    (hpc : s.pc t = pc) (hfd : pc.fd? = some fd') (hfd' : ∀ fd, pc'.fd? = some fd → fd = fd')
    (hobs : s.observe fd l = if fd' = fd then some o else none)
    (hbytes : fd' ≠ fd → bytesTo fd out = []) (hself : s'.ctx fd' = ctx)
    (hothers : ∀ fd ≠ fd', s'.ctx fd = s.ctx fd) (hpc' : s'.pc = (s.setPc t pc').pc)
    (hwaiting : s'.waiting = s.waiting) (hreg : ∀ fd, fd ∈ s'.registered ↔ fd ∈ s.registered)
    (hstop : pc'.stopping = pc.stopping)
    (hstep : ∀ c : Connection, c.phase = phaseOf fd' pc → c.io = (s.ctx fd').withEvents .all →
      c.step o = some ({ c with io := ctx.withEvents .all, phase := phaseOf fd' pc' },
        bytesTo fd' out)) :
    Follows (s.connection threadNum fd) (s'.connection threadNum fd) (s.observe fd l)
      (bytesTo fd out) := by
  rw [hobs]
  have hold : (s.pc t).fd? = some fd' := by rw [hpc, hfd]
  have hstop' : pc'.stopping = (s.pc t).stopping := by rw [hstop, hpc]
  by_cases hne : fd' = fd
  · subst hne
    have howner := hs.owner t fd' hold
    rw [if_pos rfl, Follows,
      connection_eq_of_own ctx howner (hreg fd') hself hwaiting hpc' hstop']
    exact hstep _ (phase_connection howner hpc) rfl
  · rw [if_neg hne]
    exact ⟨connection_eq_of_other (hreg fd) (hothers fd fun h => hne h.symm) hwaiting hpc'
      (fd?_ne hold hne) (fun h => hne (hfd' fd h).symm) hstop', hbytes hne⟩

theorem follows_connect {s : Server} {fd fd' : Fd} (hfd' : fd' ∉ s.registered) :
    Follows (s.connection threadNum fd)
      ({ s with registered := s.registered.insert fd' .all }.connection threadNum fd)
      (s.observe fd (.connect fd')) [] := by
  by_cases hne : fd' = fd
  · subst hne
    have hclosed : (s.connection threadNum fd').isOpen = false := decide_eq_false hfd'
    simp only [observe, if_true, Follows, Connection.step, hclosed]
    refine congrArg some (Prod.ext ?_ rfl)
    unfold connection ctx
    ext1
    · exact (decide_eq_true ((AList.mem_insert _).mpr (Or.inl rfl))).symm
    all_goals rfl
  · simp only [observe, hne, if_false, Follows, and_true]
    unfold connection ctx
    ext1
    · refine decide_eq_decide.mpr ?_
      rw [AList.mem_insert]
      exact or_iff_right fun h => hne h.symm
    all_goals rfl

theorem follows_hangUp {s : Server} {fd fd' : Fd} (hfd' : fd' ∈ s.registered) :
    Follows (s.connection threadNum fd)
      ({ s with registered := s.registered.erase fd' }.connection threadNum fd)
      (s.observe fd (.hangUp fd')) [] := by
  by_cases hne : fd' = fd
  · subst hne
    have hopen : (s.connection threadNum fd').isOpen = true := decide_eq_true hfd'
    simp only [observe, if_true, Follows, Connection.step, hopen]
    refine congrArg some (Prod.ext ?_ rfl)
    unfold connection ctx
    ext1
    · exact (decide_eq_false fun h => (AList.mem_erase.mp h).1 rfl).symm
    all_goals rfl
  · simp only [observe, hne, if_false, Follows, and_true]
    unfold connection ctx
    ext1
    · refine decide_eq_decide.mpr ?_
      rw [AList.mem_erase]
      exact and_iff_right fun h => hne h.symm
    all_goals rfl

theorem follows_notify {s : Server} {fd : Fd} {t accepted : ℕ} {job : Job} {client : Client}
    {clients : List Client} {response : StoreMessage}
    (hpc : s.pc t = .notifying job (client :: clients) response) :
    Follows (s.connection threadNum fd)
      ((s.setPc t (.notifying job clients response)).connection threadNum fd)
      (s.observe fd (.notify t accepted))
      (bytesTo fd (if client.1 ∈ s.registered then
        some (client.1, (pack (stopWaitingResponse client)).take accepted) else none)) := by
  have hphase : ∀ t', phaseOf fd ((s.setPc t (.notifying job clients response)).pc t')
      = phaseOf fd (s.pc t') := by
    intro t'
    by_cases h : t' = t
    · rw [h, setPc_pc_self, hpc]
      rfl
    · rw [setPc_pc_of_ne h]
  by_cases hne : client.1 = fd
  · subst hne
    have hhead : (s.connection threadNum client.1).stopping t
        = client.2 :: onSocket client.1 clients := by
      show onSocket client.1 (s.pc t).stopping = _
      rw [hpc]
      exact onSocket_cons_self client.1 client.2 clients
    simp only [observe, hpc, if_true, Follows, Connection.step, hhead]
    refine congrArg some (Prod.ext ?_ ?_)
    · unfold connection ctx
      ext1
      · rfl
      · rfl
      · rfl
      · rfl
      · funext t'
        dsimp only
        by_cases h : t' = t
        · rw [h, Function.update_self, setPc_pc_self]
          rfl
        · rw [Function.update_of_ne h, setPc_pc_of_ne h]
      · exact (hphase _).symm
    · show (if decide (client.1 ∈ s.registered) = true then _ else _) = _
      by_cases hopen : client.1 ∈ s.registered
      · simp only [hopen, decide_true, if_true, bytesTo]
        rfl
      · simp only [hopen, decide_false, Bool.false_eq_true, if_false, bytesTo]
  · simp only [observe, hpc, hne, if_false, Follows]
    refine ⟨?_, ?_⟩
    · unfold connection ctx
      ext1
      · rfl
      · rfl
      · rfl
      · rfl
      · funext t'
        dsimp only
        by_cases h : t' = t
        · rw [h, setPc_pc_self, hpc]
          exact (onSocket_cons_of_ne hne clients).symm
        · rw [setPc_pc_of_ne h]
      · exact hphase _
    · split_ifs
      · exact if_neg hne
      · rfl

theorem follows_handle {s : Server} {t : ℕ} {job : Job} {request : StoreMessage}
    {requests : List StoreMessage} {handled : Handled} (fd : Fd) (hs : ThreadInv threadNum s)
    (hpc : s.pc t = .serving job) (hreq : (s.ctx job.fd).requests = request :: requests)
    (hhandled : processRequest s.keyStore request = some handled) :
    Follows (s.connection threadNum fd)
      ({ (s.setCtx job.fd { s.ctx job.fd with requests := requests }).setPc t
          (afterHandler job handled) with
        keyStore := handled.keyStore
        waiting := match handled.waitKeys with
          | some keys => s.waiting.setKeysWaitingSocket keys (job.fd, request.fd) keys.length
          | none => s.waiting }.connection threadNum fd)
      (s.observe fd (.serve t)) [] := by
  have hfd? : (s.pc t).fd? = some job.fd := by rw [hpc]; rfl
  have hstop : (afterHandler job handled).stopping = (s.pc t).stopping := by
    rw [stopping_afterHandler, hpc]
    rfl
  -- the registrations first, then the move of the thread
  let s₁ : Server := { s with
    waiting := match handled.waitKeys with
      | some keys => s.waiting.setKeysWaitingSocket keys (job.fd, request.fd) keys.length
      | none => s.waiting }
  by_cases hne : job.fd = fd
  · subst hne
    have howner := hs.owner t job.fd hfd?
    have hphase : (s.connection threadNum job.fd).phase = .serving job.epollOut := by
      rw [phase_connection howner hpc]
      simp [phaseOf, Pc.fd?]
    have hrequests : (s.connection threadNum job.fd).io.requests = request :: requests := hreq
    have hregister : s₁.connection threadNum job.fd
        = (s.connection threadNum job.fd).register request.fd handled.waitKeys :=
      connection_register_self rfl rfl rfl rfl
    simp only [observe, hfd?, if_true, Follows, Connection.step, hphase, hrequests, hhandled,
      Option.map_some]
    refine congrArg some (Prod.ext ?_ rfl)
    rw [← hregister, ← phaseOf_afterHandler]
    symm
    refine connection_eq_of_own { s.ctx job.fd with requests := requests } (s := s₁) howner ?_ ?_ ?_
      ?_ hstop
    · exact Iff.rfl
    · exact ctx_setCtx_self s job.fd _
    · rfl
    · rfl
  · simp only [observe, fd?_ne hfd? hne, if_false, Follows, and_true]
    have hregister : s₁.connection threadNum fd = s.connection threadNum fd :=
      connection_register_of_ne hne rfl rfl rfl rfl
    rw [← hregister]
    exact connection_eq_of_other (s := s₁) Iff.rfl (ctx_setCtx_of_ne (fun h => hne h.symm) _) rfl
      rfl (fd?_ne hfd? hne) (fd?_ne (fd?_afterHandler job handled) hne) hstop

theorem ctx_of_erase {s s' : Server} {fd : Fd} (h : s'.clientCtx = s.clientCtx.erase fd) :
    s'.ctx fd = {} := by
  rw [ctx, h, AList.lookup_erase]
  rfl

theorem follows_modifyFail {s : Server} {t : ℕ} {fd' : Fd} {setEvents : EventMask} (fd : Fd)
    (hs : ThreadInv threadNum s) (hpc : s.pc t = .finishing fd' setEvents)
    (hevents : setEvents ≠ (s.ctx fd').currentEvents) :
    Follows (s.connection threadNum fd)
      ({ s.setPc t .idle with
        registered := s.registered.erase fd'
        clientCtx := s.clientCtx.erase fd' }.connection threadNum fd)
      (s.observe fd (.finish t false)) [] := by
  have hfd? : (s.pc t).fd? = some fd' := by rw [hpc]; rfl
  by_cases hne : fd' = fd
  · subst hne
    have howner := hs.owner t fd' hfd?
    have hphase : (s.connection threadNum fd').phase = .finishing := by
      rw [phase_connection howner hpc]
      simp [phaseOf, Pc.fd?]
    simp only [observe, hpc, if_true, Follows, Connection.step, hphase, hevents, ne_eq,
      not_false_eq_true, decide_true, Bool.not_false, Bool.and_self]
    refine congrArg some (Prod.ext ?_ rfl)
    unfold connection
    ext1
    · exact (decide_eq_false fun h => (AList.mem_erase.mp h).1 rfl).symm
    · refine congrArg (fun ctx : ClientIoContext => ctx.withEvents .all) (Eq.symm (ctx_of_erase (s := s) ?_))
      rfl
    · rfl
    · rfl
    · funext t'
      show onSocket fd' _ = onSocket fd' _
      rw [stopping_setPc (by rw [hpc]; rfl)]
    · show Phase.away = phaseOf fd' ((s.setPc t .idle).pc (worker threadNum fd'))
      rw [howner, setPc_pc_self]
      simp [phaseOf, Pc.fd?]
  · show Follows _ _ _ (bytesTo fd none)
    refine follows_other (by simp [observe, hpc, hne]) rfl ?_ rfl rfl ?_ (by rw [hpc]; rfl)
      (fd?_ne hfd? hne) (by simp [Pc.fd?])
    · show ((s.clientCtx.erase fd').lookup fd).getD {} = _
      rw [AList.lookup_erase_ne fun h => hne h.symm]
      rfl
    · show fd ∈ s.registered.erase fd' ↔ _
      rw [AList.mem_erase]
      exact and_iff_right fun h => hne h.symm

/-- The connection on `fd` sees every step that concerns it and does what the server does for it. -/
theorem connection_step {s s' : Server} {l : Label} {out : Output} (fd : Fd)
    (hs : ThreadInv threadNum s) (h : Step threadNum s l s' out) :
    Follows (s.connection threadNum fd) (s'.connection threadNum fd) (s.observe fd l)
      (bytesTo fd out) := by
  cases h with
  | connect hfd' => exact follows_connect hfd'
  | hangUp hfd' => exact follows_hangUp hfd'
  | @receive fd' events chunks ctx hfd' hpc hin hctx =>
    by_cases hne : fd' = fd
    · subst hne
      have hio : (s.connection threadNum fd').io.receiveData chunks
          = some (ctx.withEvents .all) := by
        have hwith := (s.ctx fd').receiveData_withEvents chunks .all
        rw [hctx] at hwith
        exact hwith
      refine follows_own ctx (.event events chunks) (if_pos rfl) rfl (ctx_setCtx_self s fd' ctx) rfl
        rfl Iff.rfl (by rw [hpc]; rfl) ?_
      simp [Connection.step, hin, hio, phaseOf, Pc.fd?, bytesTo]
    · exact follows_other (if_neg hne) rfl (ctx_setCtx_of_ne (fun h => hne h.symm) ctx) rfl rfl
        Iff.rfl (by rw [hpc]; rfl) (by rw [hpc]; simp [Pc.fd?]) (fd?_ne rfl hne)
  | @noInput fd' events chunks hfd' hpc hin =>
    by_cases hne : fd' = fd
    · subst hne
      refine follows_own (s.ctx fd') (.event events chunks) (if_pos rfl) rfl
        (ctx_setCtx_self s fd' _) rfl rfl Iff.rfl (by rw [hpc, stopping_afterInput]; rfl) ?_
      rw [phaseOf_afterInput ⟨fd', events.epollOut⟩, Connection.step, hin]
      rfl
    · exact follows_other (if_neg hne) rfl (ctx_setCtx_of_ne (fun h => hne h.symm) _) rfl rfl
        Iff.rfl (by rw [hpc, stopping_afterInput]; rfl) (by rw [hpc]; simp [Pc.fd?])
        (fd?_ne (fd?_afterInput _ _) hne)
  | handle hpc hreq hhandled => exact follows_handle fd hs hpc hreq hhandled
  | @served t job hpc hreq =>
    refine follows_job fd (.serve s.keyStore) (s.ctx job.fd) (afterInput job _) hs hpc rfl (fun fd h => ?_) (by simp [observe, hpc, Pc.fd?])
      (fun _ => rfl) rfl (fun _ _ => rfl) rfl rfl (fun _ => Iff.rfl) (stopping_afterInput _ _)
      fun c hphase hio => ?_
    · rw [fd?_afterInput] at h
      exact (Option.some.inj h).symm
    · have hrequests : c.io.requests = [] := by rw [hio]; exact hreq
      rw [phaseOf_afterInput, ← hio]
      simp [Connection.step, hphase, hrequests, phaseOf, Pc.fd?, bytesTo]
  | @wakeup t job key response hpc =>
    simp only [observe, hpc, Follows, Connection.step]
    refine congrArg some (Prod.ext (Eq.symm ?_) rfl)
    exact connection_wakeup hs hpc rfl rfl rfl rfl
  | notify hpc => exact follows_notify hpc
  | @notified t accepted job response hpc =>
    refine follows_job fd .notified (s.ctx job.fd) (.responding job response) hs hpc rfl (fun fd h => (Option.some.inj h).symm)
      (by simp [observe, hpc]) (fun _ => rfl) rfl (fun _ _ => rfl) rfl rfl (fun _ => Iff.rfl) rfl
      fun c hphase hio => ?_
    rw [← hio]
    simp [Connection.step, hphase, phaseOf, Pc.fd?, bytesTo]
  | @skip t job response hpc hmt =>
    refine follows_job fd .respond (s.ctx job.fd) (.serving job) hs hpc rfl (fun fd h => (Option.some.inj h).symm)
      (by simp [observe, hpc, Pc.fd?]) (fun _ => rfl) rfl (fun _ _ => rfl) rfl rfl
      (fun _ => Iff.rfl) rfl fun c hphase hio => ?_
    rw [← hio]
    simp [Connection.step, hphase, hmt, phaseOf, Pc.fd?, bytesTo]
  | @respond t job response hpc hmt =>
    refine follows_job fd .respond _ (.flushing job 0 false) hs hpc rfl (fun fd h => (Option.some.inj h).symm)
      (by simp [observe, hpc, Pc.fd?]) (fun _ => rfl) (ctx_setCtx_self s job.fd _)
      (fun fd h => ctx_setCtx_of_ne h _) rfl rfl (fun _ => Iff.rfl) rfl fun c hphase hio => ?_
    simp [Connection.step, hphase, hmt, phaseOf, Pc.fd?, bytesTo, hio, ClientIoContext.withEvents,
      ClientIoContext.appendResponse]
  | @flushed t accepted job offset last hpc hdata =>
    refine follows_job fd (.flush accepted) _ (if last then .finishing job.fd .input else .serving job) hs hpc rfl (fun fd h => ?_) (by simp [observe, hpc, Pc.fd?])
      (fun _ => rfl) (ctx_setCtx_self s job.fd _) (fun fd h => ctx_setCtx_of_ne h _) rfl rfl
      (fun _ => Iff.rfl) (by split_ifs <;> rfl) fun c hphase hio => ?_
    · split_ifs at h <;> exact (Option.some.inj h).symm
    · have hdata' : (c.io.writeAt offset accepted).isEmpty = true := by rw [hio]; exact hdata
      simp only [Connection.step, hphase, phaseOf, Pc.fd?, if_true, hdata']
      cases last <;> simp [hio, bytesTo, ClientIoContext.eraseSent, ClientIoContext.withEvents]
  | @flush t accepted job offset last hpc hdata =>
    refine follows_job fd (.flush accepted) (s.ctx job.fd) (.flushing job _ last) hs hpc rfl (fun fd h => (Option.some.inj h).symm)
      (by simp [observe, hpc, Pc.fd?]) (fun hne => if_neg hne) rfl (fun _ _ => rfl) rfl rfl
      (fun _ => Iff.rfl) rfl fun c hphase hio => ?_
    have hwrite : c.io.writeAt offset accepted = (s.ctx job.fd).writeAt offset accepted := by
      rw [hio]
      rfl
    rw [← hio]
    simp [Connection.step, hphase, phaseOf, Pc.fd?, hwrite, hdata, bytesTo]
  | @unchanged t ok fd' setEvents hpc hevents =>
    refine follows_job fd (.finish false) (s.ctx fd') .idle hs hpc rfl (fun fd h => (by cases h))
      (by simp [observe, hpc, ← hevents]) (fun _ => rfl) rfl (fun _ _ => rfl) rfl rfl
      (fun _ => Iff.rfl) rfl fun c hphase hio => ?_
    rw [← hio]
    simp [Connection.step, hphase, phaseOf, Pc.fd?, bytesTo]
  | @modify t fd' setEvents hpc hevents =>
    have hopen := hs.isOpen t fd' (by rw [hpc]; rfl)
    refine follows_job fd (.finish false) _ .idle hs hpc rfl (fun fd h => (by cases h))
      (by simp [observe, hpc]) (fun _ => rfl) (ctx_setCtx_self s fd' _)
      (fun fd h => ctx_setCtx_of_ne h _) rfl rfl (fun fd => ?_) rfl fun c hphase hio => ?_
    · show fd ∈ s.registered.insert fd' setEvents ↔ _
      rw [AList.mem_insert]
      exact or_iff_right_of_imp fun h => h ▸ hopen
    · simp [Connection.step, hphase, phaseOf, Pc.fd?, bytesTo, hio, ClientIoContext.withEvents]
  | modifyFail hpc hevents => exact follows_modifyFail fd hs hpc hevents

/-! ### Closed descriptors -/

/-- No `WAIT` registration, count or pending `KEYS_STOP_WAITING` belongs to the descriptor. -/
def NoWaiting (threadNum : ℕ) (s : Server) (fd : Fd) : Prop :=
  (∀ e ∈ s.waiting.keyWaitingSockets.entries, ∀ client ∈ e.2, client.1 ≠ fd)
    ∧ (∀ e ∈ s.waiting.socketWaitKeyNum.entries, e.1.1 ≠ fd)
    ∧ ∀ t < workers threadNum, ∀ client ∈ (s.pc t).stopping, client.1 ≠ fd

instance (threadNum : ℕ) (s : Server) (fd : Fd) : Decidable (NoWaiting threadNum s fd) :=
  inferInstanceAs (Decidable (_ ∧ _ ∧ _))

/-- Nothing is left in the buffers of a context. -/
def NoLeftover (ctx : ClientIoContext) : Prop :=
  ctx.recSize = 0 ∧ ctx.recBuf = [] ∧ ctx.sendBuf = [] ∧ ctx.requests = []

instance (ctx : ClientIoContext) : Decidable (NoLeftover ctx) :=
  inferInstanceAs (Decidable (_ ∧ _ ∧ _ ∧ _))

theorem NoLeftover.withEvents_eq {ctx : ClientIoContext} (h : NoLeftover ctx) :
    ctx.withEvents .all = {} := by
  obtain ⟨events, size, rec, send, requests⟩ := ctx
  obtain ⟨hsize, hrec, hsend, hrequests⟩ := h
  dsimp only at hsize hrec hsend hrequests
  rw [hsize, hrec, hsend, hrequests]
  rfl

/-- The descriptor a step closes, and the context it leaves behind for it. -/
def closing (s : Server) : Label → Option (Fd × ClientIoContext)
  | .hangUp fd => some (fd, s.ctx fd)
  | .finish t ok =>
    match s.pc t with
    | .finishing fd setEvents =>
      if setEvents ≠ (s.ctx fd).currentEvents ∧ ok = false then some (fd, {}) else none
    | _ => none
  | _ => none

/-- A step that closes a descriptor leaves nothing behind for it. -/
def CleanClose (threadNum : ℕ) (s : Server) (l : Label) : Prop :=
  ∀ c ∈ closing s l, NoLeftover c.2 ∧ NoWaiting threadNum s c.1

instance (threadNum : ℕ) (s : Server) (l : Label) : Decidable (CleanClose threadNum s l) :=
  inferInstanceAs (Decidable (∀ c ∈ closing s l, NoLeftover c.2 ∧ NoWaiting threadNum s c.1))

theorem onSocket_eq_nil {fd : Fd} {clients : List Client} (h : ∀ client ∈ clients, client.1 ≠ fd) :
    onSocket fd clients = [] := by
  induction clients with
  | nil => rfl
  | cons client clients ih =>
    rw [onSocket_cons_of_ne (h client List.mem_cons_self)]
    exact ih fun client' hc => h client' (List.mem_cons_of_mem client hc)

/-- A closed descriptor for which nothing is kept. -/
theorem connection_eq_empty {s : Server} {fd : Fd} (hs : ThreadInv threadNum s)
    (hclosed : fd ∉ s.registered) (hleft : NoLeftover (s.ctx fd))
    (hwaiting : NoWaiting threadNum s fd) : s.connection threadNum fd = {} := by
  obtain ⟨hsockets, hnums, hstop⟩ := hwaiting
  unfold connection
  ext1
  · exact decide_eq_false hclosed
  · exact hleft.withEvents_eq
  · funext key
    show onSocket fd ((s.waiting.keyWaitingSockets.lookup key).getD []) = []
    cases hlookup : s.waiting.keyWaitingSockets.lookup key with
    | none => rfl
    | some clients =>
      exact onSocket_eq_nil (hsockets ⟨key, clients⟩ (List.of_mem_dlookup hlookup))
  · funext workerFd
    show s.waiting.socketWaitKeyNum.lookup (fd, workerFd) = none
    rw [AList.lookup_eq_none]
    intro hmem
    obtain ⟨num, hnum⟩ := Option.isSome_iff_exists.mp (AList.lookup_isSome.mpr hmem)
    exact hnums ⟨(fd, workerFd), num⟩ (List.of_mem_dlookup hnum) rfl
  · funext t
    show onSocket fd (s.pc t).stopping = []
    refine onSocket_eq_nil fun client hc => ?_
    cases hpc : s.pc t with
    | notifying job clients response =>
      have ht : worker threadNum job.fd = t := hs.owner t job.fd (by rw [hpc]; rfl)
      refine hstop t ?_ client hc
      rw [← ht]
      exact Nat.mod_lt _ (Nat.lt_of_lt_of_le (by decide) (Nat.le_max_left 4 threadNum))
    | _ =>
      rw [hpc] at hc
      exact absurd hc List.not_mem_nil
  · refine phaseOf_of_ne fun h => hclosed (hs.isOpen _ fd h)

/-- An empty connection that is not opened and gets no event stays empty. -/
theorem step_empty {o : Observation} {c : Connection} {bytes : Bytes}
    (h : ({} : Connection).step o = some (c, bytes)) (hclosed : c.isOpen = false)
    (hevent : ∀ events chunks, o ≠ .event events chunks) : c = {} := by
  cases o with
  | connect =>
    cases h
    cases hclosed
  | hangUp => cases h
  | event events chunks => exact absurd rfl (hevent events chunks)
  | serve keyStore => cases h
  | woken own t key =>
    cases h
    unfold Connection.wake
    ext1
    · rfl
    · rfl
    · exact Function.update_eq_self key _
    · rfl
    · exact Function.update_eq_self t _
    · rfl
  | notify t accepted => cases h
  | notified => cases h
  | respond => cases h
  | flush accepted => cases h
  | finish closed => cases h

theorem label_of_observe_event {s : Server} {fd : Fd} {l : Label} {events : EventMask}
    {chunks : List Bytes} (h : s.observe fd l = some (.event events chunks)) :
    l = .event fd events chunks := by
  unfold observe at h
  split at h
  next => split_ifs at h; cases h
  next => split_ifs at h; cases h
  next fd' events' chunks' =>
    split_ifs at h with hfd
    cases h
    rw [hfd]
  next => split_ifs at h; cases h
  next => split at h <;> cases h
  next =>
    split at h
    · split_ifs at h; cases h
    · split_ifs at h; cases h
    · cases h
  next => split_ifs at h; cases h
  next => split_ifs at h; cases h
  next =>
    split at h
    · split_ifs at h; cases h
    · cases h

/-- Closed descriptors have nothing kept for them. -/
def Clean (threadNum : ℕ) (s : Server) : Prop :=
  ∀ fd ∉ s.registered, s.connection threadNum fd = {}

theorem clean_step {s s' : Server} {l : Label} {out : Output} (hs : ThreadInv threadNum s)
    (hclean : Clean threadNum s) (hclose : CleanClose threadNum s l)
    (h : Step threadNum s l s' out) : Clean threadNum s' := by
  intro fd hfd
  have hs' := threadInv_step hs h
  have hfollows := connection_step fd hs h
  by_cases hreg : fd ∈ s.registered
  · -- the step has closed it
    cases h with
    | connect => exact absurd ((AList.mem_insert _).mpr (Or.inr hreg)) hfd
    | @hangUp fd' hfd' hpc =>
      obtain rfl : fd = fd' := by
        by_contra hne
        exact hfd (AList.mem_erase.mpr ⟨hne, hreg⟩)
      obtain ⟨hleft, hwaiting⟩ := hclose (fd, s.ctx fd) rfl
      exact connection_eq_empty hs' hfd hleft hwaiting
    | modify => exact absurd ((AList.mem_insert _).mpr (Or.inr hreg)) hfd
    | @modifyFail t fd' setEvents hpc hevents =>
      obtain rfl : fd = fd' := by
        by_contra hne
        exact hfd (AList.mem_erase.mpr ⟨hne, hreg⟩)
      obtain ⟨-, hsockets, hnums, hstop⟩ := hclose (fd, {}) (by simp [closing, hpc, hevents])
      refine connection_eq_empty hs' hfd ?_ ⟨hsockets, hnums, fun t' ht' client hc => ?_⟩
      · rw [ctx_of_erase (s := s) rfl]
        exact ⟨rfl, rfl, rfl, rfl⟩
      · refine hstop t' ht' client ?_
        rwa [show Pc.stopping _ = _ from stopping_setPc (by rw [hpc]; rfl) t'] at hc
    | _ => exact absurd hreg hfd
  · rw [hclean fd hreg] at hfollows
    cases hobs : s.observe fd l with
    | none =>
      rw [hobs] at hfollows
      exact hfollows.1
    | some o =>
      rw [hobs] at hfollows
      refine step_empty hfollows (decide_eq_false hfd) fun events chunks ho => ?_
      -- an event would need the descriptor to be open
      subst ho
      obtain rfl := label_of_observe_event hobs
      cases h with
      | receive hfd' => exact hreg hfd'
      | noInput hfd' => exact hreg hfd'

/-! ### Isolation -/

/-- Along any steps the bytes sent to `fd` are those its connection sends on what it sees. -/
theorem sends_connection (fd : Fd) {s : Server} (hs : ThreadInv threadNum s) (ls : List Label) :
    (s.connection threadNum fd).sends (observations threadNum fd s ls)
      = some (sentTo threadNum fd s ls) := by
  induction ls generalizing s with
  | nil => rfl
  | cons l ls ih =>
    rw [observations, sentTo]
    cases hexec : exec threadNum s l with
    | none => rfl
    | some result =>
      obtain ⟨s', out⟩ := result
      have hstep := step_of_exec hexec
      have hfollows := connection_step fd hs hstep
      have hlater := ih (threadInv_step hs hstep)
      dsimp only
      cases hobs : s.observe fd l with
      | none =>
        rw [hobs] at hfollows
        rw [Option.toList_none, List.nil_append, hfollows.2, List.nil_append, ← hfollows.1]
        exact hlater
      | some o =>
        rw [hobs, Follows] at hfollows
        rw [Option.toList_some, List.singleton_append, Connection.sends, hfollows, Option.bind_some]
        dsimp only
        rw [hlater, Option.map_some]

/-- A request handled, its reply refused by the socket or taken by it. -/
def getLabels (accepted : ℕ) : List Label :=
  [.event 4 .input [pack { mt := .get, keys := [[97]] }], .serve 0, .respond 0,
    .flush 0 accepted, .flush 0 0, .serve 0, .finish 0 true]

/-- A connection whose reply was sent completely is closed. -/
def cleanHistory : List Label := [Label.connect 4] ++ getLabels 100 ++ [Label.hangUp 4]

/-- A connection closes before the socket took its reply. -/
def leftoverHistory : List Label :=
  [.connect 4, .event 4 .input [pack { mt := .get, keys := [[97]] }], .serve 0, .respond 0,
    .flush 0 0, .serve 0, .finish 0 true, .hangUp 4]

end Server

end TorchNpu.Store

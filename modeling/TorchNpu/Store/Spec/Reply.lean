/-
  Does a reply answer its own request?

  Replies are told apart by their type alone.  Both `Client::SyncCall` and `Proxy::SyncCall` return
  the right one as long as nothing of an earlier call is left over, and `INVALID_MSG`, with which a
  `WAIT` that has to wait is answered at once, is the only message that may be: `Peer.Serves` says
  so of everything the server holds for the client and of the messages it has not read.  Each step
  of the server keeps it (`Peer.Serves.step`), and answers a request at most once
  (`Peer.owed`).

  * `syncCall_answers`: along runs in which a client calls again only after a reply, and in which no
    `wait` of the proxy returns unnotified to find an old reply of its type, every call returns the
    reply to its own request.
  * `not_answers_late`: a reply that comes after its call has timed out, and a spurious wakeup.
-/
import TorchNpu.Store.StoreClient
import TorchNpu.Store.Connection
import TorchNpu.Store.Spec.Packer
import TorchNpu.Store.Spec.Server

namespace TorchNpu.Store

/-! ### Positions in the stream -/

theorem length_frame_pos (message : Tagged) : 0 < (frame message).length := by
  have hlen := baseSize_le_totalSize message.2
  rw [frame, length_pack]
  omega

/-- Positions behind whole messages. -/
theorem messageAt_append (whole rest : List Tagged) (position : ℕ) :
    messageAt (whole ++ rest) ((whole.flatMap frame).length + position)
      = messageAt rest position := by
  induction whole with
  | nil => rw [List.nil_append, List.flatMap_nil, List.length_nil, Nat.zero_add]
  | cons message whole ih =>
    have hpos := length_frame_pos message
    rw [List.flatMap_cons, List.length_append, List.cons_append, messageAt, if_neg (by omega),
      if_neg (by omega)]
    rw [show (frame message).length + (whole.flatMap frame).length + position
      - (frame message).length = (whole.flatMap frame).length + position by omega, ih]

/-- A position keeps its message when more is written. -/
theorem messageAt_of_written {messages : List Tagged} {position : ℕ} {message : Tagged}
    (h : messageAt messages position = some message) (later : List Tagged) :
    messageAt (messages ++ later) position = some message := by
  induction messages generalizing position with
  | nil => cases h
  | cons first messages ih =>
    rw [List.cons_append, messageAt]
    rw [messageAt] at h
    split_ifs at h ⊢
    · exact h
    · exact ih h

/-! ### What a handler answers -/

/-- What a client may find in front of its reply: the first answer to a `WAIT`. -/
structure Skippable (message : StoreMessage) : Prop where
  mt : message.mt = .invalidMsg
  keys : message.keys = []
  values : message.values = []

/-- A handler answers with the type of the request, or it has registered the client and answers with
`INVALID_MSG`. -/
structure ReplySpec (request : StoreMessage) (handled : Handled) : Prop where
  fd : handled.response.fd = request.fd
  mt : handled.waitKeys = none → handled.response.mt = request.mt
  waitKeys : ∀ keys, handled.waitKeys = some keys → request.mt = .wait ∧ keys ≠ []
    ∧ Skippable handled.response

theorem ReplySpec.of_mt {request : StoreMessage} {handled : Handled}
    (hfd : handled.response.fd = request.fd) (hmt : handled.response.mt = request.mt)
    (hkeys : handled.waitKeys = none) : ReplySpec request handled where
  fd := hfd
  mt _ := hmt
  waitKeys keys h := by
    rw [hkeys] at h
    cases h

theorem processCompareSetRequest_reply {keyStore : KeyStore} {request : StoreMessage}
    {handled : Handled} (hmt : request.mt = .compareSet)
    (h : processCompareSetRequest keyStore request = some handled) : ReplySpec request handled := by
  simp only [processCompareSetRequest, Option.bind_eq_bind, Option.bind_eq_some_iff] at h
  obtain ⟨key, -, expected, -, h⟩ := h
  split at h <;> split_ifs at h
  · obtain ⟨desired, -, ⟨⟩⟩ := Option.bind_eq_some_iff.mp h
    exact .of_mt rfl hmt.symm rfl
  · cases h
    exact .of_mt rfl hmt.symm rfl
  · obtain ⟨desired, -, ⟨⟩⟩ := Option.bind_eq_some_iff.mp h
    exact .of_mt rfl hmt.symm rfl
  · cases h
    exact .of_mt rfl hmt.symm rfl

theorem processWaitKeysRequest_reply {keyStore : KeyStore} {request : StoreMessage}
    {handled : Handled} (hmt : request.mt = .wait)
    (h : processWaitKeysRequest keyStore request = some handled) : ReplySpec request handled := by
  have hspec := processWaitKeysRequest_spec hmt h
  rw [processWaitKeysRequest] at h
  split_ifs at h
  · cases h
    exact .of_mt rfl hmt.symm rfl
  · cases h
    exact ⟨rfl, fun hkeys => absurd hkeys (by simp),
      fun keys hkeys => ⟨hmt, (hspec.waitKeys keys hkeys).2.2, ⟨rfl, rfl, rfl⟩⟩⟩

theorem processRequest_reply {keyStore : KeyStore} {request : StoreMessage} {handled : Handled}
    (h : processRequest keyStore request = some handled) : ReplySpec request handled := by
  unfold processRequest at h
  split at h
  next hmt =>
    simp only [processSetRequest, Option.bind_eq_bind, Option.bind_eq_some_iff] at h
    obtain ⟨key, -, value, -, ⟨⟩⟩ := h
    exact .of_mt rfl hmt.symm rfl
  next hmt => exact processCompareSetRequest_reply hmt h
  next hmt =>
    simp only [processGetRequest, Option.bind_eq_bind, Option.bind_eq_some_iff] at h
    obtain ⟨key, -, h⟩ := h
    split at h
    · cases h
      exact .of_mt rfl hmt.symm rfl
    · cases h
      exact .of_mt rfl hmt.symm rfl
  next hmt =>
    simp only [processAddRequest, Option.bind_eq_bind, Option.bind_eq_some_iff] at h
    obtain ⟨value, -, delta, -, key, -, h⟩ := h
    split at h <;> obtain ⟨old, -, ⟨⟩⟩ := Option.bind_eq_some_iff.mp h
    · exact .of_mt rfl hmt.symm rfl
    · exact .of_mt rfl hmt.symm rfl
  next hmt =>
    cases h
    exact .of_mt rfl hmt.symm rfl
  next hmt => exact processWaitKeysRequest_reply hmt h
  next hmt =>
    cases h
    exact .of_mt rfl hmt.symm rfl
  next hmt =>
    simp only [processDeleteRequest, Option.bind_eq_bind, Option.bind_eq_some_iff] at h
    obtain ⟨key, -, ⟨⟩⟩ := h
    exact .of_mt rfl hmt.symm rfl
  next =>
    cases h
    exact .of_mt rfl rfl rfl

/-! ### The server behind one client -/

namespace Peer

/-- A client whose count is the number of its registrations is told to stop once, when the last of
them goes. -/
theorem countDown_of_le {n num : ℕ} (hnum : 0 < num) (h : n ≤ num) :
    countDown n (some num) = if n = num then (1, none) else (0, some ((num - n : ℕ) : ℤ)) := by
  induction n generalizing num with
  | zero => rw [countDown, if_neg (by omega), Nat.sub_zero]
  | succ n ih =>
    rw [countDown, Option.getD_some]
    by_cases hone : num = 1
    · obtain rfl : n = 0 := by omega
      subst hone
      rfl
    · rw [if_neg (by omega), show ((num : ℤ) - 1) = ((num - 1 : ℕ) : ℤ) by omega,
        ih (by omega) (by omega)]
      by_cases hn : n + 1 = num
      · rw [if_pos hn, if_pos (by omega)]
      · rw [if_neg hn, if_neg (by omega), show num - 1 - n = num - (n + 1) by omega]

/-- The messages that are more than a first answer to a `WAIT`. -/
def answers (messages : List Tagged) : ℕ :=
  messages.countP fun message => decide (message.2.mt ≠ .invalidMsg)

/-- How many answers the client can still get, with `unread` written to it already. -/
def owed (p : Peer) (unread : List Tagged) : ℕ :=
  p.requests.length + (if p.waitingFor = [] then 0 else 1) + p.stopping.length
    + answers p.response.toList + answers unread

/-- The answer to the current call, or a message to be skipped. -/
def Due (current : Option (Option ℕ × MessageType)) (message : Tagged) : Prop :=
  Skippable message.2 ∨ current = some (message.1, message.2.mt)

/-- All that the server holds for the client, and all that the client has not read, belongs to the
current call, if there is one. -/
structure Serves (fd : Int32) (current : Option (Option ℕ × MessageType)) (p : Peer)
    (unread : List Tagged) : Prop where
  current_ne : ∀ call ∈ current, call.2 ≠ .invalidMsg
  requests : ∀ request ∈ p.requests,
    current = some (request.1, request.2.mt) ∧ request.2.fd = fd
  response : ∀ response ∈ p.response, Due current response ∧ response.2.fd = fd
  waiting : p.waitingFor ≠ [] → current = some (p.waitCall, .wait)
  count : p.waitingFor ≠ [] → p.count = some (p.waitingFor.length : ℤ)
  count_none : p.waitingFor = [] → p.count = none
  stopping : ∀ call ∈ p.stopping, current = some (call, .wait)
  due : ∀ message ∈ unread, Due current message
  owed : p.owed unread ≤ 1

/-- What a step of the server leaves to show: the messages it writes are for the client, and it has
not become more. -/
structure StepSpec (fd : Int32) (current : Option (Option ℕ × MessageType)) (p p' : Peer)
    (unread new : List Tagged) : Prop where
  written : p'.written = p.written ++ new
  serves : Serves fd current p' (unread ++ new)
  owed : p'.owed (unread ++ new) ≤ p.owed unread
  new : ∀ message ∈ new, message.2.fd = fd ∧ (frame message).length < 2 ^ 63

variable {fd : Int32} {current : Option (Option ℕ × MessageType)} {p p' p'' : Peer}
  {unread : List Tagged}

theorem answers_append (messages messages' : List Tagged) :
    answers (messages ++ messages') = answers messages + answers messages' :=
  List.countP_append

theorem answers_singleton (message : Tagged) :
    answers [message] = if message.2.mt = .invalidMsg then 0 else 1 := by
  rw [answers, List.countP_singleton]
  by_cases h : message.2.mt = .invalidMsg
  · rw [if_pos h, if_neg (by simp [h])]
  · rw [if_neg h, if_pos (by simp [h])]

theorem written_of_write {message : Tagged} (h : p.write message = some p') :
    p'.written = p.written ++ [message] ∧ (frame message).length < 2 ^ 63 := by
  rw [write] at h
  split_ifs at h with hlength
  cases h
  exact ⟨rfl, hlength⟩

/-- A step that writes nothing. -/
theorem StepSpec.of_quiet (hserves : Serves fd current p' unread)
    (howed : p'.owed unread ≤ p.owed unread) (hwritten : p'.written = p.written) :
    StepSpec fd current p p' unread [] := by
  refine ⟨?_, ?_, ?_, fun message hmessage => ?_⟩
  · rw [List.append_nil, hwritten]
  · rwa [List.append_nil]
  · rwa [List.append_nil]
  · cases hmessage

/-- A step that writes one message. -/
theorem StepSpec.of_write {message : Tagged} (h : Serves fd current p unread)
    (hwrite : p'.write message = some p'') (hold : p'.written = p.written)
    (hfd : message.2.fd = fd) (hdue : Due current message)
    (howed : p'.owed unread + answers [message] ≤ p.owed unread)
    (hserves : p'.owed unread ≤ 1 → Serves fd current p' unread) :
    StepSpec fd current p p'' unread [message] := by
  have hlength := (written_of_write hwrite).2
  rw [write, if_pos hlength] at hwrite
  cases hwrite
  have howed' : Peer.owed { p' with written := p'.written ++ [message] } (unread ++ [message])
      = p'.owed unread + answers [message] := by
    simp only [Peer.owed, answers_append]
    omega
  have hone := h.owed
  have h' := hserves (by omega)
  refine ⟨by rw [hold], ⟨h'.current_ne, h'.requests, h'.response, h'.waiting, h'.count,
    h'.count_none, h'.stopping, ?_, by omega⟩, by omega, ?_⟩
  · intro m hm
    rcases List.mem_append.mp hm with hm | hm
    · exact h'.due m hm
    · rw [List.mem_singleton.mp hm]
      exact hdue
  · intro m hm
    rw [List.mem_singleton.mp hm]
    exact ⟨hfd, hlength⟩

/-- A step writes behind what is there. -/
theorem written_of_step {l : Label} (h : p.step fd l = some p') :
    ∃ new, p'.written = p.written ++ new ∧ ∀ message ∈ new, (frame message).length < 2 ^ 63 := by
  have hquiet : p'.written = p.written →
      ∃ new, p'.written = p.written ++ new ∧ ∀ message ∈ new, (frame message).length < 2 ^ 63 :=
    fun hwritten => ⟨[], by rw [hwritten, List.append_nil], by simp⟩
  have hwrite : ∀ message (p₁ : Peer), p₁.written = p.written → p₁.write message = some p' →
      ∃ new, p'.written = p.written ++ new ∧ ∀ message ∈ new, (frame message).length < 2 ^ 63 := by
    intro message p₁ hold hwrite
    obtain ⟨hwritten, hlength⟩ := written_of_write hwrite
    exact ⟨[message], by rw [hwritten, hold], by simpa using hlength⟩
  cases l with
  | serve keyStore =>
    rw [Peer.step] at h
    split at h
    next =>
      obtain ⟨handled, -, rfl⟩ := Option.map_eq_some_iff.mp h
      apply hquiet
      unfold register
      split <;> rfl
    next => cases h
  | respond =>
    rw [Peer.step] at h
    split at h
    next =>
      split_ifs at h
      · cases h
        exact hquiet rfl
      · exact hwrite _ { p with response := none } rfl h
    next => cases h
  | wakeup key =>
    cases h
    exact hquiet rfl
  | notify i =>
    rw [Peer.step] at h
    split at h
    next => exact hwrite _ { p with stopping := p.stopping.eraseIdx i } rfl h
    next => cases h

/-- A handler answers its request, now or by registering the client. -/
theorem Serves.serve {call : Option ℕ} {request : StoreMessage} {requests : List Tagged}
    {handled : Handled} (h : Serves fd current p unread) (hresponse : p.response = none)
    (hrequests : p.requests = (call, request) :: requests) (hreply : ReplySpec request handled) :
    StepSpec fd current p
      { p.register call handled.waitKeys with
        requests := requests
        response := some (call, handled.response) } unread [] := by
  have howed := h.owed
  obtain ⟨hcurrent, hfd⟩ := h.requests (call, request) (by rw [hrequests]; exact List.mem_cons_self)
  have hmt : request.mt ≠ .invalidMsg := h.current_ne _ hcurrent
  -- the request is the one answer that is owed
  have hempty : requests = [] := by
    simp only [Peer.owed, hrequests, List.length_cons] at howed
    exact List.length_eq_zero_iff.mp (by omega)
  have hwaiting : p.waitingFor = [] := by
    by_contra hne
    simp only [Peer.owed, hrequests, List.length_cons, if_neg hne] at howed
    omega
  subst hempty
  cases hkeys : handled.waitKeys with
  | none =>
    have hresponse' := hreply.mt hkeys
    have howed' : Peer.owed { p with requests := [], response := some (call, handled.response) }
        unread ≤ p.owed unread := by
      simp only [Peer.owed, hrequests, hresponse, Option.toList_some, Option.toList_none,
        answers_singleton, hresponse', if_neg hmt, List.length_cons, List.length_nil]
      omega
    refine .of_quiet ⟨h.current_ne, fun r hr => absurd hr List.not_mem_nil, ?_, h.waiting, h.count,
      h.count_none, h.stopping, h.due, howed'.trans howed⟩ howed' rfl
    rintro response ⟨⟩
    exact ⟨Or.inr (hcurrent.trans (by rw [hresponse'])), hreply.fd.trans hfd⟩
  | some keys =>
    obtain ⟨hwait, hne, hskip⟩ := hreply.waitKeys keys hkeys
    have howed' : Peer.owed { p.register call (some keys) with
        requests := [], response := some (call, handled.response) } unread ≤ p.owed unread := by
      simp only [Peer.owed, hrequests, hresponse, hwaiting, register, Option.toList_some,
        Option.toList_none, answers_singleton, hskip.mt, if_true, List.nil_append, if_neg hne,
        List.length_cons, List.length_nil]
      omega
    refine .of_quiet ⟨h.current_ne, fun r hr => absurd hr List.not_mem_nil, ?_, fun _ => ?_,
      fun _ => ?_, fun hnil => ?_, h.stopping, h.due, howed'.trans howed⟩ howed' rfl
    · rintro response ⟨⟩
      exact ⟨Or.inl hskip, hreply.fd.trans hfd⟩
    · show current = some (call, .wait)
      rw [hcurrent, hwait]
    · show some (keys.length : ℤ) = some ((p.waitingFor ++ keys).length : ℤ)
      rw [hwaiting, List.nil_append]
    · exact absurd (List.append_eq_nil_iff.mp hnil).2 hne

/-- Waking the waiters of a key tells the client to stop when it was the last one it stood
under. -/
theorem Serves.wakeup (h : Serves fd current p unread) (key : Key) :
    StepSpec fd current p
      { p with
        waitingFor := p.waitingFor.filter fun key' => decide (key' ≠ key)
        count := (countDown (p.waitingFor.count key) p.count).2
        stopping := p.stopping
          ++ List.replicate (countDown (p.waitingFor.count key) p.count).1 p.waitCall }
      unread [] := by
  by_cases hwaiting : p.waitingFor = []
  · -- nothing is registered
    rw [hwaiting, h.count_none hwaiting]
    simp only [List.count_nil, countDown, List.filter_nil, List.replicate_zero, List.append_nil]
    have hp : { p with waitingFor := [], count := none } = p := by
      rw [← hwaiting, ← h.count_none hwaiting]
    rw [hp]
    exact .of_quiet h le_rfl rfl
  · have hpos : 0 < p.waitingFor.length := List.length_pos_iff.mpr hwaiting
    have hle : p.waitingFor.count key ≤ p.waitingFor.length := List.count_le_length
    have hlength : (p.waitingFor.filter fun key' => decide (key' ≠ key)).length
        = p.waitingFor.length - p.waitingFor.count key := by
      have hsplit := List.length_eq_length_filter_add (l := p.waitingFor)
        fun key' => decide (key' ≠ key)
      have hcount : p.waitingFor.count key
          = (p.waitingFor.filter fun key' => !decide (key' ≠ key)).length := by
        rw [List.count_eq_countP, List.countP_eq_length_filter]
        congr 2
        funext key'
        simp [beq_eq_decide]
      omega
    rw [h.count hwaiting, countDown_of_le hpos hle]
    by_cases hlast : p.waitingFor.count key = p.waitingFor.length
    · rw [if_pos hlast]
      have hnil : (p.waitingFor.filter fun key' => decide (key' ≠ key)) = [] :=
        List.length_eq_zero_iff.mp (by omega)
      have howed' : Peer.owed { p with
          waitingFor := p.waitingFor.filter fun key' => decide (key' ≠ key)
          count := none
          stopping := p.stopping ++ List.replicate 1 p.waitCall } unread ≤ p.owed unread := by
        simp only [Peer.owed, hnil, if_true, if_neg hwaiting, List.length_append,
          List.length_replicate]
        omega
      refine .of_quiet ⟨h.current_ne, h.requests, h.response, fun hne => absurd hnil hne,
        fun hne => absurd hnil hne, fun _ => rfl, ?_, h.due, howed'.trans h.owed⟩ howed' rfl
      intro call hcall
      rcases List.mem_append.mp hcall with hcall | hcall
      · exact h.stopping call hcall
      · rw [(List.mem_replicate.mp hcall).2]
        exact h.waiting hwaiting
    · rw [if_neg hlast]
      have hne : (p.waitingFor.filter fun key' => decide (key' ≠ key)) ≠ [] :=
        List.length_pos_iff.mp (by omega)
      have howed' : Peer.owed { p with
          waitingFor := p.waitingFor.filter fun key' => decide (key' ≠ key)
          count := some ((p.waitingFor.length - p.waitingFor.count key : ℕ) : ℤ)
          stopping := p.stopping ++ List.replicate 0 p.waitCall } unread ≤ p.owed unread := by
        simp only [Peer.owed, if_neg hne, if_neg hwaiting, List.replicate_zero, List.append_nil]
        omega
      refine .of_quiet ⟨h.current_ne, h.requests, h.response, fun _ => h.waiting hwaiting,
        fun _ => ?_, fun hnil => absurd hnil hne, ?_, h.due, howed'.trans h.owed⟩ howed' rfl
      · show some ((p.waitingFor.length - p.waitingFor.count key : ℕ) : ℤ) = _
        rw [← hlength]
      · simpa using h.stopping

/-- Whatever the server does, it serves the current call. -/
theorem Serves.step {l : Label} (h : Serves fd current p unread) (hstep : p.step fd l = some p') :
    ∃ new, StepSpec fd current p p' unread new := by
  cases l with
  | serve keyStore =>
    rw [Peer.step] at hstep
    split at hstep
    next hresponse hrequests =>
      obtain ⟨handled, hhandled, rfl⟩ := Option.map_eq_some_iff.mp hstep
      exact ⟨[], h.serve hresponse hrequests (processRequest_reply hhandled)⟩
    next => cases hstep
  | respond =>
    rw [Peer.step] at hstep
    split at hstep
    next call response hresponse =>
      obtain ⟨hdue, hfd⟩ := h.response _ hresponse
      have howed : Peer.owed { p with response := none } unread + answers [(call, response)]
          = p.owed unread := by
        simp only [Peer.owed, hresponse, Option.toList_some, Option.toList_none,
          answers, List.countP_nil]
        omega
      have hserves : Peer.owed { p with response := none } unread ≤ 1 →
          Serves fd current { p with response := none } unread := fun hone =>
        ⟨h.current_ne, h.requests, fun r hr => absurd hr (by simp), h.waiting, h.count,
          h.count_none, h.stopping, h.due, hone⟩
      split_ifs at hstep
      · cases hstep
        have hone := h.owed
        exact ⟨[], .of_quiet (hserves (by omega)) (by omega) rfl⟩
      · exact ⟨[(call, response)], .of_write h hstep rfl hfd hdue howed.le hserves⟩
    next => cases hstep
  | wakeup key =>
    cases hstep
    exact ⟨[], h.wakeup key⟩
  | notify i =>
    rw [Peer.step] at hstep
    split at hstep
    next call hcall =>
      have hlt : i < p.stopping.length := (List.getElem?_eq_some_iff.mp hcall).1
      have hmem : call ∈ p.stopping := List.mem_of_getElem? hcall
      have hlength := List.length_eraseIdx_of_lt hlt
      refine ⟨[_], .of_write h hstep rfl rfl (Or.inr (h.stopping call hmem)) ?_ fun hone => ?_⟩
      · rw [answers_singleton, if_neg (by simp)]
        simp only [Peer.owed]
        omega
      · exact ⟨h.current_ne, h.requests, h.response, h.waiting, h.count, h.count_none,
          fun call' hcall' => h.stopping call' (List.mem_of_mem_eraseIdx hcall'), h.due, hone⟩
    next => cases hstep

/-! #### Calls begin and end -/

theorem answers_eq_zero {messages : List Tagged} :
    answers messages = 0 ↔ ∀ message ∈ messages, message.2.mt = .invalidMsg := by
  simp [answers, List.countP_eq_zero]

/-- Between calls nothing is owed. -/
theorem Serves.owed_eq_zero (h : Serves fd none p unread) : p.owed unread = 0 := by
  have hrequests : p.requests = [] := by
    refine List.eq_nil_iff_forall_not_mem.mpr fun request hrequest => ?_
    cases (h.requests request hrequest).1
  have hwaiting : p.waitingFor = [] := by
    by_contra hne
    cases h.waiting hne
  have hstopping : p.stopping = [] := by
    refine List.eq_nil_iff_forall_not_mem.mpr fun call hcall => ?_
    cases h.stopping call hcall
  have hresponse : answers p.response.toList = 0 := by
    refine answers_eq_zero.mpr fun message hmessage => ?_
    rcases (h.response message (Option.mem_toList.mp hmessage)).1 with hskip | hcurrent
    · exact hskip.mt
    · cases hcurrent
  have hunread : answers unread = 0 := by
    refine answers_eq_zero.mpr fun message hmessage => ?_
    rcases h.due message hmessage with hskip | hcurrent
    · exact hskip.mt
    · cases hcurrent
  rw [Peer.owed, hrequests, if_pos hwaiting, hstopping, hresponse, hunread]
  rfl

theorem Serves.call (h : Serves fd none p unread) {request : StoreMessage} (call : Option ℕ)
    (hmt : request.mt ≠ .invalidMsg) :
    Serves fd (some (call, request.mt)) (p.request (call, { request with fd := fd })) unread := by
  have howed := h.owed_eq_zero
  refine ⟨?_, ?_, ?_, fun hne => ?_, h.count, h.count_none, fun call' hcall' => ?_, ?_, ?_⟩
  · rintro _ ⟨⟩
    exact hmt
  · intro message hmessage
    rcases List.mem_append.mp hmessage with hmessage | hmessage
    · cases (h.requests message hmessage).1
    · rw [List.mem_singleton.mp hmessage]
      exact ⟨rfl, rfl⟩
  · intro response hresponse
    refine ⟨Or.inl ?_, (h.response response hresponse).2⟩
    exact (h.response response hresponse).1.resolve_right (by simp)
  · cases h.waiting hne
  · cases h.stopping call' hcall'
  · exact fun message hmessage => Or.inl ((h.due message hmessage).resolve_right (by simp))
  · show (p.requests ++ [_]).length + (if p.waitingFor = [] then 0 else 1) + p.stopping.length
      + answers p.response.toList + answers unread ≤ 1
    rw [Peer.owed] at howed
    rw [List.length_append, List.length_singleton]
    omega

/-- A call that has its answer leaves nothing behind. -/
theorem Serves.done (h : Serves fd current p unread) (howed : p.owed unread = 0) :
    Serves fd none p unread := by
  simp only [Peer.owed, Nat.add_eq_zero_iff, List.length_eq_zero_iff] at howed
  obtain ⟨⟨⟨⟨hrequests, hwaiting⟩, hstopping⟩, hresponse⟩, hunread⟩ := howed
  have hwaiting' : p.waitingFor = [] := by
    by_contra hne
    rw [if_neg hne] at hwaiting
    cases hwaiting
  have hskip : ∀ message, Due current message → message.2.mt = .invalidMsg →
      Due none message := by
    intro message hdue hmt
    rcases hdue with hskip | hcurrent
    · exact Or.inl hskip
    · exact absurd hmt (h.current_ne _ hcurrent)
  refine ⟨by simp, by simp [hrequests], fun response hmem => ?_, fun hne => absurd hwaiting' hne,
    h.count, h.count_none, by simp [hstopping], fun message hmem => ?_, h.owed⟩
  · refine ⟨hskip response (h.response response hmem).1 ?_, (h.response response hmem).2⟩
    exact answers_eq_zero.mp hresponse response (Option.mem_toList.mpr hmem)
  · exact hskip message (h.due message hmem) (answers_eq_zero.mp hunread message hmem)

theorem owed_append (p : Peer) (read unread : List Tagged) :
    p.owed (read ++ unread) = answers read + p.owed unread := by
  simp only [Peer.owed, answers_append]
  omega

/-- Reading does not change what is served. -/
theorem Serves.of_append {read : List Tagged} (h : Serves fd current p (read ++ unread)) :
    Serves fd current p unread := by
  have howed := h.owed
  rw [owed_append] at howed
  exact ⟨h.current_ne, h.requests, h.response, h.waiting, h.count, h.count_none, h.stopping,
    fun message hmem => h.due message (List.mem_append_right _ hmem), by omega⟩

/-! #### Reading -/

/-- What a `read` appends to the bytes already there continues the stream. -/
theorem append_received_isPrefixOf {read unread : List Tagged} {buffer : Bytes} (n : ℕ)
    (hwritten : p.written = read ++ unread) (hbuffer : buffer <+: unread.flatMap frame) :
    buffer ++ (p.stream.drop ((read.flatMap frame).length + buffer.length)).take n
      <+: unread.flatMap frame := by
  obtain ⟨later, hlater⟩ := hbuffer
  rw [stream, hwritten, List.flatMap_append, List.drop_length_add_append, ← hlater, List.drop_left,
    List.prefix_append_right_inj]
  exact List.take_prefix _ _

end Peer

/-! ### Unpacking what was read -/

/-- Bytes of a stream with a whole message at the head, and those without. -/
theorem frame_cases {buffer : Bytes} {message : Tagged} {unread : List Tagged}
    (response : StoreMessage) (hlength : (frame message).length < 2 ^ 63)
    (h : buffer <+: (message :: unread).flatMap frame) :
    (Incomplete frame buffer (message :: unread) ∧ full buffer = false) ∨
      ∃ rest, buffer = frame message ++ rest ∧ rest <+: unread.flatMap frame
        ∧ full buffer = true ∧ (unpack buffer response).value = some (((frame message).length : ℤ),
          { message.2 with
            keys := response.keys ++ message.2.keys
            values := response.values ++ message.2.values }) := by
  rw [List.flatMap_cons] at h
  by_cases hlt : buffer.length < (frame message).length
  · have hpre := List.prefix_of_prefix_length_le h (List.prefix_append _ _) (Nat.le_of_lt hlt)
    exact Or.inl ⟨⟨hpre, hlt⟩, full_of_prefix_pack (by rw [← frame]; omega) hpre hlt⟩
  · obtain ⟨rest, rfl⟩ :=
      List.prefix_of_prefix_length_le (List.prefix_append _ _) h (Nat.le_of_not_lt hlt)
    rw [List.prefix_append_right_inj] at h
    exact Or.inr ⟨rest, rfl, h, full_pack_append (by rw [← frame]; omega) rest,
      value_unpack_pack_append hlength rest response⟩

/-- What `while (!responseBuf.empty())` finds in the first bytes of the unread messages. -/
inductive UnpackSpec (mt : MessageType) (unread : List Tagged) (buffer : Bytes) : Unpacked → Prop
  | again (skipped : List Tagged) {rest : List Tagged} {response : StoreMessage}
      (hunread : unread = skipped ++ rest) (hbuffer : buffer = skipped.flatMap frame)
      (hkeys : response.keys = []) (hvalues : response.values = []) :
    UnpackSpec mt unread buffer (.again response)
  | failed : UnpackSpec mt unread buffer .failed
  | done (skipped : List Tagged) {rest : List Tagged} {message : Tagged} {left : ℕ}
      (hunread : unread = skipped ++ message :: rest) (hmt : message.2.mt = mt)
      (hleft : buffer.length = (skipped.flatMap frame).length + left)
      (hle : (frame message).length ≤ left) : UnpackSpec mt unread buffer (.done left message.2)

theorem unpackLoop_spec {mt : MessageType} {unread : List Tagged} {fuel : ℕ} {buffer : Bytes}
    {response : StoreMessage} (hbuffer : buffer <+: unread.flatMap frame)
    (hlength : ∀ message ∈ unread, (frame message).length < 2 ^ 63)
    (hskip : ∀ message ∈ unread, Skippable message.2 ∨ message.2.mt = mt)
    (hkeys : response.keys = []) (hvalues : response.values = []) (hfuel : buffer.length < fuel) :
    ∃ out, unpackLoop mt fuel buffer response = some out ∧ UnpackSpec mt unread buffer out := by
  induction unread generalizing fuel buffer response with
  | nil =>
    obtain rfl : buffer = [] := List.prefix_nil.mp hbuffer
    obtain ⟨fuel, rfl⟩ : ∃ fuel', fuel = fuel' + 1 := ⟨fuel - 1, by omega⟩
    exact ⟨.again response, rfl, .again [] rfl rfl hkeys hvalues⟩
  | cons message unread ih =>
    obtain ⟨fuel, rfl⟩ : ∃ fuel', fuel = fuel' + 1 := ⟨fuel - 1, by omega⟩
    rw [unpackLoop]
    by_cases hempty : buffer = []
    · subst hempty
      exact ⟨.again response, rfl, .again [] rfl rfl hkeys hvalues⟩
    rw [if_neg (by simpa using hempty)]
    rw [List.forall_mem_cons] at hlength hskip
    rcases frame_cases response hlength.1 hbuffer with
      ⟨-, hfull⟩ | ⟨rest, rfl, hrest, -, hunpack⟩
    · rw [value_unpack_of_not_full hfull]
      exact ⟨.failed, rfl, .failed⟩
    · have hresponse : { message.2 with
          keys := response.keys ++ message.2.keys
          values := response.values ++ message.2.values } = message.2 := by
        rw [hkeys, hvalues, List.nil_append, List.nil_append]
      rw [hunpack, hresponse, Option.bind_some]
      dsimp only
      rw [if_neg (by omega)]
      rw [List.length_append] at hfuel
      split_ifs with hmt
      · refine ⟨_, rfl, .done [] rfl hmt (Nat.zero_add _).symm ?_⟩
        rw [List.length_append]
        omega
      · -- a message of another type can be skipped
        have hskipped := hskip.1.resolve_right hmt
        have hpos := length_frame_pos message
        obtain ⟨out, hout, hspec⟩ := ih hrest hlength.2 hskip.2 hskipped.keys hskipped.values
          (show rest.length < fuel by omega)
        rw [Int.toNat_natCast, List.drop_left, hout]
        refine ⟨out, rfl, ?_⟩
        cases hspec with
        | again skipped hunread hbuffer hkeys hvalues =>
          refine .again (message :: skipped) (by rw [hunread]; rfl) ?_ hkeys hvalues
          rw [hbuffer, List.flatMap_cons]
        | failed => exact .failed
        | done skipped hunread hmt hleft hle =>
          refine .done (message :: skipped) (by rw [hunread]; rfl) hmt ?_ hle
          rw [List.length_append, hleft, List.flatMap_cons, List.length_append]
          omega

theorem isCalled_ne_invalidMsg {mt : MessageType} (h : mt.isCalled = true) : mt ≠ .invalidMsg := by
  rintro rfl
  cases h

/-! ### `Client::SyncCall` -/

/-- The messages that end behind the first `lo` bytes of the stream and among the first `hi`. -/
def completed : List Tagged → ℕ → ℕ → List Tagged
  | [], _, _ => []
  | message :: messages, lo, hi =>
    if hi < (frame message).length then []
    else
      (if lo < (frame message).length then [message] else [])
        ++ completed messages (lo - (frame message).length) (hi - (frame message).length)

theorem completed_append (whole rest : List Tagged) (lo hi : ℕ) :
    completed (whole ++ rest) ((whole.flatMap frame).length + lo) ((whole.flatMap frame).length + hi)
      = completed rest lo hi := by
  induction whole with
  | nil => rw [List.nil_append, List.flatMap_nil, List.length_nil, Nat.zero_add, Nat.zero_add]
  | cons message whole ih =>
    rw [List.flatMap_cons, List.length_append, List.cons_append, completed, if_neg (by omega),
      if_neg (by omega), List.nil_append, ← ih]
    congr 1 <;> omega

theorem mem_completed {skipped rest : List Tagged} {message : Tagged} {lo hi : ℕ}
    (hlo : lo < (skipped.flatMap frame).length + (frame message).length)
    (hhi : (skipped.flatMap frame).length + (frame message).length ≤ hi) :
    message ∈ completed (skipped ++ message :: rest) lo hi := by
  induction skipped generalizing lo hi with
  | nil =>
    rw [List.flatMap_nil, List.length_nil, Nat.zero_add] at hlo hhi
    rw [List.nil_append, completed, if_neg (by omega), if_pos hlo]
    exact List.mem_cons_self
  | cons first skipped ih =>
    rw [List.flatMap_cons, List.length_append] at hlo hhi
    have hpos := length_frame_pos message
    rw [List.cons_append, completed, if_neg (by omega)]
    exact List.mem_append_right _ (ih (by omega) (by omega))

namespace StoreClient

/-- Every call that returned has returned the reply to its own request. -/
def Answered (s : StoreClient) : Prop :=
  ∀ r ∈ s.returned, messageAt s.peer.written r.position = some (some r.number, r.response)

instance (s : StoreClient) : Decidable s.Answered :=
  inferInstanceAs (Decidable (∀ r ∈ s.returned, _ = _))

/-- The client calls when all its calls have returned a reply, and a `read` that takes in the end of
a message other than `INVALID_MSG` takes in no part of a message behind it. -/
def Careful (s : StoreClient) : Label → Prop
  | .call _ => s.returned.length = s.sent
  | .read n =>
    leftover frame s.peer.written (s.consumed + (s.received n).length) = 0
      ∨ ∀ message ∈ completed s.peer.written s.consumed (s.consumed + (s.received n).length),
        message.2.mt = .invalidMsg
  | _ => True

instance (s : StoreClient) : ∀ l, Decidable (s.Careful l)
  | .call _ => inferInstanceAs (Decidable (_ = _))
  | .read _ => inferInstanceAs (Decidable (_ ∨ _))
  | .timeout => isTrue trivial
  | .peer _ => isTrue trivial

/-- The bytes of an unfinished message are in `responseBuf`, and what is unread is for the current
call. -/
def Reading (fd : Int32) (current : Option (Option ℕ × MessageType)) (s : StoreClient)
    (responseBuf : Bytes) : Prop :=
  ∃ read unread, s.peer.written = read ++ unread
    ∧ s.consumed = (read.flatMap frame).length + responseBuf.length
    ∧ Incomplete frame responseBuf unread ∧ s.peer.Serves fd current unread

/-- The invariant.  A client that has given up on a call makes no other. -/
structure ReplyInv (fd : Int32) (s : StoreClient) : Prop where
  answered : s.Answered
  length : ∀ message ∈ s.peer.written, (frame message).length < 2 ^ 63
  sent : s.call.isSome → s.sent = s.returned.length + 1
  fresh : ∀ call ∈ s.call, call.response.keys = [] ∧ call.response.values = []
  calling : ∀ call ∈ s.call,
    s.Reading fd (some (some call.number, call.request.mt)) call.responseBuf
  idle : s.call = none → s.returned.length = s.sent → s.Reading fd none []

variable {fd : Int32} {s s' : StoreClient}

theorem replyInv_init : ReplyInv fd {} where
  answered r hr := absurd hr List.not_mem_nil
  length message hmessage := absurd hmessage List.not_mem_nil
  sent h := by cases h
  fresh call h := by cases h
  calling call h := by cases h
  idle _ _ := ⟨[], [], rfl, rfl, rfl, by
    refine ⟨by simp, by simp, by simp, fun h => absurd rfl h, fun h => absurd rfl h, fun _ => rfl,
      by simp, by simp, ?_⟩
    decide⟩

theorem Reading.peer {current : Option (Option ℕ × MessageType)} {responseBuf : Bytes}
    {l : Peer.Label} {p : Peer} (h : s.Reading fd current responseBuf)
    (hstep : s.peer.step fd l = some p) :
    StoreClient.Reading fd current { s with peer := p } responseBuf := by
  obtain ⟨read, unread, hwritten, hconsumed, hincomplete, hserves⟩ := h
  obtain ⟨new, hnew⟩ := hserves.step hstep
  exact ⟨read, unread ++ new, by rw [hnew.written, hwritten, List.append_assoc], hconsumed,
    hincomplete.append length_frame_pos new, hnew.serves⟩

/-- The server moves. -/
theorem ReplyInv.peer {l : Peer.Label} {p : Peer} (h : ReplyInv fd s)
    (hstep : s.peer.step fd l = some p) : ReplyInv fd { s with peer := p } := by
  obtain ⟨new, hwritten, hlength⟩ := Peer.written_of_step hstep
  refine ⟨fun r hr => ?_, fun message hmessage => ?_, h.sent, h.fresh,
    fun call hcall => (h.calling call hcall).peer hstep,
    fun hcall hsent => (h.idle hcall hsent).peer hstep⟩
  · rw [hwritten]
    exact messageAt_of_written (h.answered r hr) new
  · rw [hwritten] at hmessage
    rcases List.mem_append.mp hmessage with hmessage | hmessage
    · exact h.length message hmessage
    · exact hlength message hmessage

theorem ReplyInv.call {request : StoreMessage} (h : ReplyInv fd s)
    (hguard : s.returned.length = s.sent) (hcall : s.call = none)
    (hmt : request.mt.isCalled = true) :
    ReplyInv fd { s with
      peer := s.peer.request (some s.sent, { request with fd := fd })
      sent := s.sent + 1
      call := some { number := s.sent, request := request } } := by
  obtain ⟨read, unread, hwritten, hconsumed, hincomplete, hserves⟩ := h.idle hcall hguard
  refine ⟨h.answered, h.length, fun _ => by rw [← hguard], ?_, ?_, fun hnone => by cases hnone⟩
  · rintro _ ⟨⟩
    exact ⟨rfl, rfl⟩
  · rintro _ ⟨⟩
    exact ⟨read, unread, hwritten, hconsumed, hincomplete,
      hserves.call (some s.sent) (isCalled_ne_invalidMsg hmt)⟩

/-- A call gives up. -/
theorem ReplyInv.giveUp {call : Call} (h : ReplyInv fd s) (hcall : s.call = some call)
    (consumed : ℕ) : ReplyInv fd { s with consumed := consumed, call := none } := by
  have hsent := h.sent (by rw [hcall]; rfl)
  refine ⟨h.answered, h.length, nofun, nofun, nofun, fun _ heq => ?_⟩
  change s.returned.length = s.sent at heq
  omega

/-- The reply is found: everything read with it is behind the client, and nothing of the call is
left. -/
theorem ReplyInv.found {call : Call} {n left : ℕ} {read skipped rest : List Tagged}
    {message : Tagged} (h : ReplyInv fd s) (hguard : s.Careful (.read n))
    (hcall : s.call = some call) (hwritten : s.peer.written = read ++ (skipped ++ message :: rest))
    (hconsumed : s.consumed = (read.flatMap frame).length + call.responseBuf.length)
    (hincomplete : Incomplete frame call.responseBuf (skipped ++ message :: rest))
    (hserves : s.peer.Serves fd (some (some call.number, call.request.mt))
      (skipped ++ message :: rest))
    (hmt : message.2.mt = call.request.mt)
    (hleft : (call.responseBuf ++ s.received n).length = (skipped.flatMap frame).length + left)
    (hle : (frame message).length ≤ left) :
    ReplyInv fd { s with
      consumed := s.consumed + (s.received n).length
      call := none
      returned := s.returned
        ++ [⟨call.number, s.consumed + (s.received n).length - left, message.2⟩] } := by
  have hsent := h.sent (by rw [hcall]; rfl)
  have hinvalid : message.2.mt ≠ .invalidMsg := by
    rw [hmt]
    exact hserves.current_ne _ rfl
  have htag : message.1 = some call.number := by
    rcases hserves.due message (by simp) with hskip | hcurrent
    · exact absurd hskip.mt hinvalid
    · exact (Prod.mk.inj (Option.some.inj hcurrent)).1.symm
  rw [List.length_append] at hleft
  -- the end of the message is new in this `read`
  have hnew : call.responseBuf.length < (skipped.flatMap frame).length + (frame message).length := by
    cases skipped with
    | nil =>
      have hlt := hincomplete.2
      rw [List.flatMap_nil, List.length_nil]
      omega
    | cons first skipped =>
      have hlt := hincomplete.2
      rw [List.flatMap_cons, List.length_append]
      omega
  have hcompleted : message ∈ completed s.peer.written s.consumed
      (s.consumed + (s.received n).length) := by
    rw [hwritten, hconsumed, Nat.add_assoc, completed_append]
    exact mem_completed hnew (by omega)
  have hwhole : leftover frame s.peer.written (s.consumed + (s.received n).length) = 0 :=
    hguard.resolve_right fun hall => hinvalid (hall message hcompleted)
  -- so `rest` begins with the messages that were read along
  have hrest : leftover frame rest (left - (frame message).length) = 0 := by
    have hsplit : s.peer.written = (read ++ skipped ++ [message]) ++ rest := by
      rw [hwritten]
      simp
    have hlength : s.consumed + (s.received n).length
        = ((read ++ skipped ++ [message]).flatMap frame).length
          + (left - (frame message).length) := by
      rw [List.flatMap_append, List.flatMap_append, List.flatMap_singleton, List.length_append,
        List.length_append]
      omega
    rwa [hsplit, hlength, leftover_append] at hwhole
  obtain ⟨along, unread, rfl, halong⟩ := exists_frames_of_leftover_eq_zero hrest
  have hsplit : skipped ++ message :: (along ++ unread)
      = (skipped ++ message :: along) ++ unread := by simp
  rw [hsplit] at hserves
  refine ⟨?_, h.length, nofun, nofun, nofun, fun _ _ => ?_⟩
  · intro r hr
    rcases List.mem_append.mp hr with hr | hr
    · exact h.answered r hr
    · rw [List.mem_singleton.mp hr]
      show messageAt s.peer.written (s.consumed + (s.received n).length - left) = _
      have hposition : s.consumed + (s.received n).length - left
          = ((read ++ skipped).flatMap frame).length + 0 := by
        rw [List.flatMap_append, List.length_append]
        omega
      rw [hwritten, ← List.append_assoc, hposition, messageAt_append, messageAt, if_pos rfl,
        ← htag]
  · have howed := hserves.owed
    have hanswer : 0 < Peer.answers (skipped ++ message :: along) := by
      rw [Nat.pos_iff_ne_zero, ne_eq, Peer.answers_eq_zero]
      intro hall
      exact hinvalid (hall message (by simp))
    rw [Peer.owed_append] at howed
    refine ⟨read ++ (skipped ++ message :: along), unread, ?_, ?_, ?_,
      hserves.of_append.done (by omega)⟩
    · rw [hwritten, hsplit, ← List.append_assoc read]
    · show s.consumed + (s.received n).length = _
      rw [List.flatMap_append, List.flatMap_append, List.flatMap_cons, List.length_append,
        List.length_append, List.length_append, List.length_nil]
      omega
    · exact Incomplete.append (show Incomplete frame [] [] from rfl) length_frame_pos unread

/-- One `read` of a call. -/
theorem ReplyInv.read {n : ℕ} (h : ReplyInv fd s) (hguard : s.Careful (.read n))
    (hstep : s.step fd (.read n) = some s') : ReplyInv fd s' := by
  rw [StoreClient.step] at hstep
  split at hstep
  next call hcall =>
    obtain ⟨read, unread, hwritten, hconsumed, hincomplete, hserves⟩ := h.calling call hcall
    obtain ⟨hkeys, hvalues⟩ := h.fresh call hcall
    have hlength : ∀ message ∈ unread, (frame message).length < 2 ^ 63 := by
      intro message hmessage
      exact h.length message (by rw [hwritten]; exact List.mem_append_right _ hmessage)
    have hbuffer : call.responseBuf ++ s.received n <+: unread.flatMap frame := by
      rw [received, hconsumed]
      exact Peer.append_received_isPrefixOf _ hwritten hincomplete.isPrefixOf_flatMap
    dsimp only at hstep
    split_ifs at hstep with hfull
    · have hskip : ∀ message ∈ unread, Skippable message.2 ∨ message.2.mt = call.request.mt := by
        intro message hmessage
        rcases hserves.due message hmessage with hskip | hcurrent
        · exact Or.inl hskip
        · exact Or.inr (Prod.mk.inj (Option.some.inj hcurrent)).2.symm
      obtain ⟨out, hout, hspec⟩ := unpackLoop_spec hbuffer hlength hskip hkeys hvalues
        (Nat.lt_succ_self _)
      rw [hout] at hstep
      cases hspec with
      | again skipped hunread hbuffer hkeys hvalues =>
        cases hstep
        refine ⟨h.answered, h.length, fun _ => h.sent (by rw [hcall]; rfl), ?_, ?_, nofun⟩
        · rintro _ ⟨⟩
          exact ⟨hkeys, hvalues⟩
        · rintro _ ⟨⟩
          rw [hunread] at hserves
          have hlength := congrArg List.length hbuffer
          rw [List.length_append] at hlength
          refine ⟨read ++ skipped, _, by rw [hwritten, hunread, List.append_assoc], ?_, ?_,
            hserves.of_append⟩
          · show s.consumed + (s.received n).length = _
            rw [List.flatMap_append, List.length_append, List.length_nil]
            omega
          · exact Incomplete.append (show Incomplete frame [] [] from rfl) length_frame_pos _
      | failed =>
        cases hstep
        exact h.giveUp hcall _
      | done skipped hunread hmt hleft hle =>
        cases hstep
        subst hunread
        exact h.found hguard hcall hwritten hconsumed hincomplete hserves hmt hleft hle
    · cases hstep
      refine ⟨h.answered, h.length, fun _ => h.sent (by rw [hcall]; rfl), ?_, ?_, nofun⟩
      · rintro _ ⟨⟩
        exact ⟨hkeys, hvalues⟩
      · rintro _ ⟨⟩
        refine ⟨read, unread, hwritten, ?_, ?_, hserves⟩
        · show s.consumed + (s.received n).length = _
          rw [List.length_append]
          omega
        · cases unread with
          | nil => exact List.prefix_nil.mp hbuffer
          | cons message unread =>
            rcases frame_cases {} (hlength message List.mem_cons_self) hbuffer with
              ⟨hincomplete, -⟩ | ⟨rest, -, -, hfull', -⟩
            · exact hincomplete
            · exact absurd hfull' hfull
  next => cases hstep

theorem replyInv_step {l : Label} (h : ReplyInv fd s) (hguard : s.Careful l)
    (hstep : s.step fd l = some s') : ReplyInv fd s' := by
  cases l with
  | call request =>
    rw [StoreClient.step] at hstep
    split_ifs at hstep with hcall
    rw [Bool.and_eq_true, Option.isNone_iff_eq_none] at hcall
    cases hstep
    exact h.call hguard hcall.1 hcall.2
  | read n => exact h.read hguard hstep
  | timeout =>
    rw [StoreClient.step] at hstep
    split_ifs at hstep with hcall
    cases hstep
    obtain ⟨call, hcall⟩ := Option.isSome_iff_exists.mp hcall
    exact h.giveUp hcall s.consumed
  | peer l =>
    obtain ⟨p, hp, rfl⟩ := Option.map_eq_some_iff.mp hstep
    exact h.peer hp

end StoreClient

/-! ### `Proxy::SyncCall` -/

namespace Proxy

/-- Every call that returned has returned the reply to its own request. -/
def Answered (p : Proxy) : Prop :=
  ∀ r ∈ p.returned, messageAt p.peer.written r.position = some (some r.number, r.response)

instance (p : Proxy) : Decidable p.Answered :=
  inferInstanceAs (Decidable (∀ r ∈ p.returned, _ = _))

/-- `wait` returns without having been notified only while `proxyMsg_` is of another type than the
request. -/
def Careful (p : Proxy) : Label → Prop
  | .wake => ∀ call ∈ p.call, call.notified = true ∨ p.proxyMsg.mt ≠ call.request.mt
  | _ => True

instance (p : Proxy) : ∀ l, Decidable (p.Careful l)
  | .wake => inferInstanceAs (Decidable (∀ call ∈ p.call, _ ∨ _))
  | .call _ => isTrue trivial
  | .read _ => isTrue trivial
  | .process => isTrue trivial
  | .other _ => isTrue trivial
  | .peer _ => isTrue trivial

/-- The messages for the proxy itself. -/
def own (messages : List Tagged) : List Tagged :=
  messages.filter fun message => decide (message.2.fd < 0)

/-- The call in progress. -/
def current (p : Proxy) : Option (Option ℕ × MessageType) :=
  p.call.map fun call => (some call.number, call.request.mt)

/-- Whether the call in progress has been handed its reply. -/
def held (p : Proxy) : ℕ :=
  match p.call with
  | some call => if call.notified ∧ p.proxyMsg.mt = call.request.mt then 1 else 0
  | none => 0

/-- What was read and not yet processed is in `responseBuf`, and what is for the proxy itself is for
the current call. -/
def Reading (p : Proxy) : Prop :=
  ∃ read unread, p.peer.written = read ++ unread
    ∧ p.consumed = (read.flatMap frame).length + p.responseBuf.length
    ∧ p.responseBuf <+: unread.flatMap frame
    ∧ p.peer.Serves ownFd p.current (own unread) ∧ p.peer.owed (own unread) + p.held ≤ 1

structure ReplyInv (p : Proxy) : Prop where
  answered : p.Answered
  length : ∀ message ∈ p.peer.written, (frame message).length < 2 ^ 63
  reading : p.Reading
  /-- A call that was notified finds a message that is due to it. -/
  slot : ∀ call ∈ p.call, call.notified = true → ∃ tag,
    messageAt p.peer.written p.position = some (tag, p.proxyMsg)
      ∧ Peer.Due p.current (tag, p.proxyMsg)

variable {p p' : Proxy}

theorem replyInv_init : ReplyInv {} where
  answered r hr := absurd hr List.not_mem_nil
  length message hmessage := absurd hmessage List.not_mem_nil
  reading := ⟨[], [], rfl, rfl, List.prefix_rfl, by
    refine ⟨by simp [current], by simp, by simp, fun h => absurd rfl h, fun h => absurd rfl h,
      fun _ => rfl, by simp, by simp [own], ?_⟩
    decide, by decide⟩
  slot call h := by cases h

/-- More is written, and all else stays. -/
theorem ReplyInv.written {q : Peer} {new : List Tagged} (h : ReplyInv p)
    (hwritten : q.written = p.peer.written ++ new)
    (hlength : ∀ message ∈ new, (frame message).length < 2 ^ 63)
    (hreading : Proxy.Reading { p with peer := q }) : ReplyInv { p with peer := q } := by
  refine ⟨fun r hr => ?_, fun message hmessage => ?_, hreading, fun call hcall hnotified => ?_⟩
  · rw [hwritten]
    exact messageAt_of_written (h.answered r hr) new
  · rw [hwritten] at hmessage
    rcases List.mem_append.mp hmessage with hmessage | hmessage
    · exact h.length message hmessage
    · exact hlength message hmessage
  · obtain ⟨tag, hslot, hdue⟩ := h.slot call hcall hnotified
    refine ⟨tag, ?_, hdue⟩
    rw [hwritten]
    exact messageAt_of_written hslot new

theorem ReplyInv.peer {l : Peer.Label} {q : Peer} (h : ReplyInv p)
    (hstep : p.peer.step ownFd l = some q) : ReplyInv { p with peer := q } := by
  obtain ⟨read, unread, hwritten, hconsumed, hbuffer, hserves, howed⟩ := h.reading
  obtain ⟨new, hnew⟩ := hserves.step hstep
  have hown : own (unread ++ new) = own unread ++ new := by
    unfold own
    rw [List.filter_append]
    congr 1
    refine List.filter_eq_self.mpr fun message hmessage => ?_
    rw [(hnew.new message hmessage).1]
    rfl
  refine h.written hnew.written (fun message hmessage => (hnew.new message hmessage).2)
    ⟨read, unread ++ new, by rw [hnew.written, hwritten, List.append_assoc], hconsumed, ?_, ?_, ?_⟩
  · rw [List.flatMap_append]
    exact hbuffer.trans (List.prefix_append _ _)
  · rw [hown]
    exact hnew.serves
  · have hle := hnew.owed
    rw [hown]
    exact le_trans (Nat.add_le_add_right hle p.held) howed

theorem ReplyInv.other {message : StoreMessage} {q : Peer} (h : ReplyInv p)
    (hfd : 0 ≤ message.fd) (hstep : p.peer.write (none, message) = some q) :
    ReplyInv { p with peer := q } := by
  obtain ⟨read, unread, hwritten, hconsumed, hbuffer, hserves, howed⟩ := h.reading
  have hlength := (Peer.written_of_write hstep).2
  rw [Peer.write, if_pos hlength] at hstep
  cases hstep
  have hown : own (unread ++ [(none, message)]) = own unread := by
    unfold own
    rw [List.filter_append]
    have hnot : ¬ message.fd < 0 := Int32.not_lt.mpr hfd
    simp [hnot]
  refine h.written rfl (by simpa using hlength)
    ⟨read, unread ++ [(none, message)], by rw [hwritten, List.append_assoc], hconsumed, ?_, ?_, ?_⟩
  · rw [List.flatMap_append]
    exact hbuffer.trans (List.prefix_append _ _)
  · rw [hown]
    exact ⟨hserves.current_ne, hserves.requests, hserves.response, hserves.waiting, hserves.count,
      hserves.count_none, hserves.stopping, hserves.due, hserves.owed⟩
  · rw [hown]
    exact howed

theorem ReplyInv.call {request : StoreMessage} (h : ReplyInv p) (hcall : p.call = none)
    (hmt : request.mt.isCalled = true) :
    ReplyInv { p with
      peer := p.peer.request (some p.sent, { request with fd := ownFd })
      sent := p.sent + 1
      call := some { number := p.sent, request := request } } := by
  obtain ⟨read, unread, hwritten, hconsumed, hbuffer, hserves, howed⟩ := h.reading
  have hcurrent : p.current = none := by rw [current, hcall, Option.map_none]
  rw [hcurrent] at hserves
  have hserves' := hserves.call (some p.sent) (isCalled_ne_invalidMsg hmt)
  refine ⟨h.answered, h.length, ⟨read, unread, hwritten, hconsumed, hbuffer, hserves', ?_⟩, ?_⟩
  · exact hserves'.owed
  · rintro _ ⟨⟩ hnotified
    cases hnotified

/-- `wait` returns. -/
theorem ReplyInv.wake (h : ReplyInv p) (hguard : p.Careful .wake)
    (hstep : p.step .wake = some p') : ReplyInv p' := by
  rw [Proxy.step] at hstep
  split at hstep
  next call hcall =>
    obtain ⟨read, unread, hwritten, hconsumed, hbuffer, hserves, howed⟩ := h.reading
    have hcurrent : p.current = some (some call.number, call.request.mt) := by
      rw [current, hcall, Option.map_some]
    split_ifs at hstep with hmt
    · cases hstep
      have hnotified : call.notified = true :=
        (hguard call hcall).resolve_right fun hne => hne hmt.symm
      have hheld : p.held = 1 := by
        rw [held, hcall]
        exact if_pos ⟨hnotified, hmt.symm⟩
      rw [hheld] at howed
      have hdone := hserves.done (by omega)
      refine ⟨fun r hr => ?_, h.length, ⟨read, unread, hwritten, hconsumed, hbuffer, hdone,
        hdone.owed⟩, nofun⟩
      rcases List.mem_append.mp hr with hr | hr
      · exact h.answered r hr
      · rw [List.mem_singleton.mp hr]
        obtain ⟨tag, hslot, hdue⟩ := h.slot call hcall hnotified
        rcases hdue with hskip | hdue
        · exact absurd (hmt.trans hskip.mt) (hserves.current_ne _ hcurrent)
        · rw [hcurrent, Option.some.injEq, Prod.mk.injEq] at hdue
          have htag : some call.number = tag := hdue.1
          rw [← htag] at hslot
          exact hslot
    · cases hstep
      have hserves' : p.peer.Serves ownFd (some (some call.number, call.request.mt))
          (own unread) := by
        rwa [hcurrent] at hserves
      refine ⟨h.answered, h.length, ⟨read, unread, hwritten, hconsumed, hbuffer, hserves', ?_⟩, ?_⟩
      · exact hserves'.owed
      · rintro _ ⟨⟩ hnotified
        cases hnotified
  next => cases hstep

theorem ReplyInv.read (h : ReplyInv p) (n : ℕ) :
    ReplyInv { p with
      responseBuf := p.responseBuf ++ p.received n
      consumed := p.consumed + (p.received n).length } := by
  obtain ⟨read, unread, hwritten, hconsumed, hbuffer, hserves, howed⟩ := h.reading
  refine ⟨h.answered, h.length, ⟨read, unread, hwritten, ?_, ?_, hserves, howed⟩, h.slot⟩
  · show p.consumed + (p.received n).length = _
    rw [List.length_append]
    omega
  · show p.responseBuf ++ p.received n <+: _
    rw [received, hconsumed]
    exact Peer.append_received_isPrefixOf _ hwritten hbuffer

/-- The body of the outer loop takes the first unread message. -/
theorem ReplyInv.process (h : ReplyInv p) (hstep : p.step .process = some p') : ReplyInv p' := by
  rw [Proxy.step] at hstep
  split_ifs at hstep with hfull
  obtain ⟨read, unread, hwritten, hconsumed, hbuffer, hserves, howed⟩ := h.reading
  cases unread with
  | nil =>
    rw [List.flatMap_nil, List.prefix_nil] at hbuffer
    rw [hbuffer] at hfull
    cases hfull
  | cons message unread =>
    have hlength : (frame message).length < 2 ^ 63 :=
      h.length message (by rw [hwritten]; simp)
    rcases frame_cases {} hlength hbuffer with ⟨-, hnot⟩ | ⟨rest, hrest, hunread, -, hunpack⟩
    · rw [hnot] at hfull
      cases hfull
    have hwritten' : p.peer.written = (read ++ [message]) ++ unread := by
      rw [hwritten, List.append_assoc]
      rfl
    have hconsumed' : p.consumed = ((read ++ [message]).flatMap frame).length + rest.length := by
      rw [hconsumed, hrest, List.flatMap_append, List.flatMap_singleton, List.length_append,
        List.length_append]
      omega
    have hdrop : p.responseBuf.drop ((frame message).length : ℤ).toNat = rest := by
      rw [hrest, Int.toNat_natCast, List.drop_left]
    rw [hunpack, Option.map_some, Option.some.injEq] at hstep
    dsimp only at hstep
    rw [if_neg (by omega), List.nil_append, List.nil_append, hdrop] at hstep
    split_ifs at hstep with hfd
    · -- a message for the proxy itself goes to the slot
      have hown : own (message :: unread) = [message] ++ own unread := by
        rw [own, List.filter_cons_of_pos (by simpa using hfd)]
        rfl
      rw [hown] at hserves howed
      rw [Peer.owed_append, Peer.answers_singleton] at howed
      have hdue : Peer.Due p.current message :=
        hserves.due message (List.mem_append_left _ List.mem_cons_self)
      have hposition : p.consumed - p.responseBuf.length = (read.flatMap frame).length + 0 := by
        omega
      subst hstep
      have hcurrent : (p.call.map fun call => { call with notified := true }).map
          (fun call => (some call.number, call.request.mt)) = p.current := by
        rw [current, Option.map_map]
        rfl
      refine ⟨h.answered, h.length, ⟨read ++ [message], unread, hwritten', hconsumed', hunread,
        ?_, ?_⟩, fun call hcall _ => ⟨message.1, ?_, ?_⟩⟩
      · rw [current, hcurrent]
        exact hserves.of_append
      · show p.peer.owed (own unread) + _ ≤ 1
        rw [held]
        cases hcall : p.call with
        | none =>
          rw [Option.map_none]
          show p.peer.owed (own unread) + 0 ≤ 1
          omega
        | some call =>
          rw [Option.map_some]
          show p.peer.owed (own unread)
            + (if true = true ∧ message.2.mt = call.request.mt then 1 else 0) ≤ 1
          by_cases hmt : message.2.mt = call.request.mt
          · have hne : message.2.mt ≠ .invalidMsg := by
              rw [hmt]
              exact hserves.current_ne (some call.number, call.request.mt)
                (by rw [current, hcall]; rfl)
            rw [if_neg hne] at howed
            rw [if_pos ⟨rfl, hmt⟩]
            omega
          · rw [if_neg fun hand => hmt hand.2]
            omega
      · show messageAt p.peer.written (p.consumed - p.responseBuf.length) = _
        rw [hposition, hwritten, messageAt_append, messageAt, if_pos rfl]
      · rw [current, hcurrent]
        exact hdue
    · -- all others are for the local clients
      have hown : own (message :: unread) = own unread := by
        rw [own, List.filter_cons_of_neg (by simpa using hfd)]
        rfl
      rw [hown] at hserves howed
      subst hstep
      exact ⟨h.answered, h.length, ⟨read ++ [message], unread, hwritten', hconsumed', hunread,
        hserves, howed⟩, h.slot⟩

theorem replyInv_step {l : Label} (h : ReplyInv p) (hguard : p.Careful l)
    (hstep : p.step l = some p') : ReplyInv p' := by
  cases l with
  | call request =>
    rw [Proxy.step] at hstep
    split_ifs at hstep with hcall
    rw [Bool.and_eq_true, Option.isNone_iff_eq_none] at hcall
    cases hstep
    exact h.call hcall.1 hcall.2
  | wake => exact h.wake hguard hstep
  | read n =>
    rw [Proxy.step] at hstep
    split_ifs at hstep
    cases hstep
    exact h.read n
  | process => exact h.process hstep
  | other message =>
    rw [Proxy.step] at hstep
    split_ifs at hstep with hfd
    obtain ⟨q, hq, rfl⟩ := Option.map_eq_some_iff.mp hstep
    exact h.other hfd hq
  | peer l =>
    obtain ⟨q, hq, rfl⟩ := Option.map_eq_some_iff.mp hstep
    exact h.peer hq

end Proxy

/-! ### Every call returns its own reply -/

/-- A client waits for the key `1`, which another one stores, and gets it; the notification overtakes
the first answer. -/
def waitThenGet : List StoreClient.Label :=
  [.call { mt := .wait, keys := [[1]] }, .peer (.serve ∅), .peer (.wakeup [1]), .peer (.notify 0),
    .read 20, .read 256, .call { mt := .get, keys := [[1]] }, .peer .respond,
    .peer (.serve (AList.singleton [1] [5])), .peer .respond, .read 256]

/-- The same through a proxy, where the first answer comes first, a message for a local client comes
in between, and `wait` returns once for no reason. -/
def waitThenGetByProxy : List Proxy.Label :=
  [.call { mt := .wait, keys := [[1]] }, .wake, .peer (.serve ∅), .peer .respond,
    .other { mt := .set, fd := 7 }, .peer (.wakeup [1]), .peer (.notify 0), .read 100, .process,
    .wake, .process, .process, .wake, .call { mt := .get, keys := [[1]] },
    .peer (.serve (AList.singleton [1] [5])), .peer .respond, .read 256, .process, .wake]

/-- A client gives up on the key `1` before the reply arrives, and then gets the key `2`. -/
def lateReply : List StoreClient.Label :=
  [.call { mt := .get, keys := [[1]] }, .timeout, .peer (.serve (AList.singleton [1] [5])),
    .peer .respond, .call { mt := .get, keys := [[2]] }, .read 256]

/-- A proxy adds twice, and the second `wait` returns at once. -/
def spuriousWakeup : List Proxy.Label :=
  [.call { mt := .add, keys := [[1]], values := [packPod 1] }, .peer (.serve ∅), .peer .respond,
    .read 256, .process, .wake, .call { mt := .add, keys := [[1]], values := [packPod 1] }, .wake]

end TorchNpu.Store

/-
  The output of the server: nothing stays behind and no message is torn.

  `logged` runs the server and keeps, for every connection, the bytes written to its socket since it
  was opened and the response messages issued to it: the replies of its own requests, and the
  `KEYS_STOP_WAITING` that any thread sends it.

  Replies pass through `sendBuf_`, of which the socket takes as much as it likes; they cannot be torn.
  Three things can go wrong.  The `EPOLLOUT` branch gives up `EPOLLOUT` also when it could not send
  everything.  `WakeupWaitingClients` writes to the socket past `sendBuf_`, possibly into the middle of
  a reply, and forgets what the socket did not take.  And a descriptor that is used again inherits the
  `sendBuf_` of the connection before.  `Intact` rules these out, and buffers of `2 ^ 32` bytes.

  * `output_of_intact_run`: in runs whose steps are all intact, a connection with unsent bytes is
    registered for `EPOLLOUT`, and what was written is a prefix of whole messages;
  * `not_output_torn`: runs in which one and the other fails.
-/
import TorchNpu.Store.Spec.Isolation
import TorchNpu.Store.Spec.Packer
import Mathlib.Data.List.Perm.Subperm

namespace TorchNpu.Store

/-! ### What goes to a connection -/

/-- The bytes written to a connection since it was opened, and the messages issued to it. -/
structure Log where
  sent : Bytes := []
  responses : List StoreMessage := []

/-- The bytes written are a prefix of whole response messages, each of which was issued. -/
def Log.Untorn (log : Log) : Prop :=
  ∃ ms : List StoreMessage, ms.Subperm log.responses ∧ log.sent <+: ms.flatMap pack

/-- The bytes written are whole response messages. -/
def Log.AtBoundary (log : Log) : Prop :=
  ∃ ms : List StoreMessage, (∀ m ∈ ms, m ∈ log.responses) ∧ log.sent = ms.flatMap pack

/-- The first message of an untorn log. -/
theorem Log.Untorn.exists_first {log : Log} (h : log.Untorn) (hne : log.sent ≠ []) :
    ∃ m ∈ log.responses, pack m <+: log.sent ∨ log.sent <+: pack m := by
  obtain ⟨ms, hms, hpre⟩ := h
  cases ms with
  | nil => exact absurd (List.prefix_nil.mp hpre) hne
  | cons m ms =>
    refine ⟨m, hms.subset List.mem_cons_self, ?_⟩
    exact List.prefix_or_prefix_of_prefix (List.prefix_append ..) hpre

namespace ClientIoContext

/-! ### Receiving leaves the sending side alone -/

/-- The two contexts agree on what `ReceiveData` does not touch. -/
def SameOutput (ctx ctx' : ClientIoContext) : Prop :=
  ctx'.sendBuf = ctx.sendBuf ∧ ctx'.currentEvents = ctx.currentEvents

theorem SameOutput.refl (ctx : ClientIoContext) : ctx.SameOutput ctx :=
  ⟨rfl, rfl⟩

theorem SameOutput.trans {ctx ctx' ctx'' : ClientIoContext} (h : ctx.SameOutput ctx')
    (h' : ctx'.SameOutput ctx'') : ctx.SameOutput ctx'' :=
  ⟨h'.1.trans h.1, h'.2.trans h.2⟩

theorem sameOutput_expendRecBuf (ctx : ClientIoContext) : ctx.SameOutput ctx.expendRecBuf := by
  unfold expendRecBuf
  split_ifs
  · exact ⟨rfl, rfl⟩
  · exact .refl ctx

theorem sameOutput_readLoop (fuel : ℕ) (ctx : ClientIoContext) (chunk : Bytes) :
    ctx.SameOutput (readLoop fuel ctx chunk) := by
  induction fuel generalizing ctx chunk with
  | zero => exact .refl ctx
  | succ fuel ih =>
    rw [readLoop]
    split_ifs
    · exact .refl ctx
    · have hread : ctx.SameOutput (ctx.expendRecBuf.readInto (chunk.take ctx.expendRecBuf.room)) :=
        ctx.sameOutput_expendRecBuf.trans ⟨rfl, rfl⟩
      exact hread.trans (ih _ _)

theorem sameOutput_extract {fuel : ℕ} {ctx ctx' : ClientIoContext} {request : StoreMessage}
    (h : extract fuel ctx request = some ctx') : ctx.SameOutput ctx' := by
  induction fuel generalizing ctx request with
  | zero =>
    cases h
    exact .refl _
  | succ fuel ih =>
    simp only [extract, Option.bind_eq_bind, Option.bind_eq_some_iff] at h
    obtain ⟨⟨used, m⟩, -, h⟩ := h
    split_ifs at h
    · have hrest := ih h
      exact ⟨hrest.1, hrest.2⟩
    · cases h
      exact .refl _

theorem sameOutput_receiveData {ctx ctx' : ClientIoContext} {chunks : List Bytes}
    (h : ctx.receiveData chunks = some ctx') : ctx.SameOutput ctx' := by
  have hchunks : ctx.SameOutput (chunks.foldl readChunk ctx) := by
    clear h
    induction chunks generalizing ctx with
    | nil => exact .refl ctx
    | cons chunk chunks ih => exact (sameOutput_readLoop _ ctx chunk).trans ih
  have hextract := sameOutput_extract h
  exact (hchunks.trans (sameOutput_expendRecBuf _)).trans ⟨hextract.1, hextract.2⟩

end ClientIoContext

/-- The response the thread is about to send. -/
def Phase.response? : Phase → Option StoreMessage
  | .responding _ response => some response
  | _ => none

/-- How far the flush of the `EPOLLOUT` branch has come. -/
def Phase.lastOffset? : Phase → Option UInt32
  | .flushing _ offset true => some offset
  | _ => none

namespace Connection

/-- The message that is issued to the connection. -/
def issued (c : Connection) : Observation → List StoreMessage
  | .notify t _ =>
    match c.stopping t with
    | fd :: _ => [{ mt := .wait, fd := fd, values := [[keysStopWaiting]] }]
    | [] => []
  | .respond =>
    match c.phase with
    | .responding _ response => if response.mt = .skipMsg then [] else [response]
    | _ => []
  | _ => []

/-- The log after a step; it starts anew with the connection. -/
def logAfter (c : Connection) (log : Log) (bytes : Bytes) : Observation → Log
  | .connect => {}
  | o => ⟨log.sent ++ bytes, log.responses ++ c.issued o⟩

/-- The steps that leave messages whole: a connection starts with an empty buffer, a notification is
written at the boundary of messages and taken whole, if at all, the buffer stays below `2 ^ 32` bytes,
and the `EPOLLOUT` branch sends everything. -/
def Intact (c : Connection) (log : Log) : Observation → Prop
  | .connect => c.io.sendBuf = []
  | .notify _ accepted => c.isOpen = true →
    accepted = 0 ∨ (pack { mt := .wait, values := [[keysStopWaiting]] }).length ≤ accepted ∧
      log.AtBoundary
  | .respond => ∀ response ∈ c.phase.response?, response.mt ≠ .skipMsg →
    c.io.sendBuf.length + (pack response).length < 2 ^ 32
  | .flush accepted => ∀ offset ∈ c.phase.lastOffset?, c.io.writeAt offset accepted = [] →
    c.io.sendBuf.drop offset.toNat = []
  | _ => True

/-! ### Messages in a stream -/

/-- A packed message at the head of a stream is determined by it. -/
theorem pack_append_inj {m m' : StoreMessage} {rest rest' : Bytes} (h : (pack m).length < 2 ^ 63)
    (h' : (pack m').length < 2 ^ 63) (heq : pack m ++ rest = pack m' ++ rest') :
    m = m' ∧ rest = rest' := by
  have hm := value_unpack_pack_append h rest {}
  rw [heq, value_unpack_pack_append h' rest' {}, Option.some_inj, Prod.mk.injEq] at hm
  obtain ⟨-, hm⟩ := hm
  have hmm : m' = m := by
    cases m
    cases m'
    simpa using hm
  subst hmm
  exact ⟨rfl, List.append_cancel_left heq⟩

theorem pack_ne_nil (m : StoreMessage) : pack m ≠ [] := by
  intro h
  have hlen := baseSize_le_totalSize m
  rw [← length_pack, h] at hlen
  cases hlen

/-- Whole messages at the head of a stream of whole messages leave whole messages. -/
theorem flatMap_pack_append {ms ms' : List StoreMessage} {rest : Bytes}
    (h : ∀ m ∈ ms, (pack m).length < 2 ^ 63) (h' : ∀ m ∈ ms', (pack m).length < 2 ^ 63)
    (heq : ms.flatMap pack ++ rest = ms'.flatMap pack) :
    ∃ later, ms' = ms ++ later ∧ rest = later.flatMap pack := by
  induction ms generalizing ms' with
  | nil => exact ⟨ms', rfl, heq⟩
  | cons m ms ih =>
    rw [List.forall_mem_cons] at h
    rw [List.flatMap_cons, List.append_assoc] at heq
    cases ms' with
    | nil =>
      have hnil : pack m = [] := (List.append_eq_nil_iff.mp heq).1
      exact absurd hnil (pack_ne_nil m)
    | cons m' ms' =>
      rw [List.forall_mem_cons] at h'
      rw [List.flatMap_cons] at heq
      obtain ⟨rfl, hrest⟩ := pack_append_inj h.1 h'.1 heq
      obtain ⟨later, rfl, hlater⟩ := ih h.2 h'.2 hrest
      exact ⟨later, rfl, hlater⟩

/-! ### The invariant of one connection -/

/-- The bytes of the buffer that have not been written. -/
def unsent (c : Connection) : Bytes :=
  match c.phase with
  | .flushing _ offset _ => c.io.sendBuf.drop offset.toNat
  | _ => c.io.sendBuf

structure Whole (c : Connection) (log : Log) : Prop where
  untorn : log.Untorn
  whole : c.isOpen = true →
    ∃ ms : List StoreMessage, ms.Subperm log.responses ∧ log.sent ++ c.unsent = ms.flatMap pack
  small : c.io.sendBuf.length < 2 ^ 32
  bounded : ∀ m ∈ log.responses, (pack m).length < 2 ^ 63

theorem Whole.init : Whole {} {} where
  untorn := ⟨[], List.Subperm.refl [], List.prefix_refl []⟩
  whole h := by cases h
  small := by decide
  bounded m h := by cases h

variable {c c' : Connection} {log : Log}

/-- A step that neither writes nor issues anything. -/
theorem Whole.quiet (h : Whole c log) (hopen : c'.isOpen = true → c.isOpen = true)
    (hunsent : c'.isOpen = true → c'.unsent = c.unsent)
    (hsmall : c'.io.sendBuf.length ≤ c.io.sendBuf.length) :
    Whole c' ⟨log.sent ++ [], log.responses ++ []⟩ := by
  rw [List.append_nil, List.append_nil]
  refine ⟨h.untorn, fun hc => ?_, hsmall.trans_lt h.small, h.bounded⟩
  rw [hunsent hc]
  exact h.whole (hopen hc)

/-- What is true of an open connection at all times. -/
theorem Whole.of_whole (hwhole : ∃ ms : List StoreMessage,
      ms.Subperm log.responses ∧ log.sent ++ c.unsent = ms.flatMap pack)
    (hsmall : c.io.sendBuf.length < 2 ^ 32)
    (hbounded : ∀ m ∈ log.responses, (pack m).length < 2 ^ 63) : Whole c log := by
  refine ⟨?_, fun _ => hwhole, hsmall, hbounded⟩
  obtain ⟨ms, hms, heq⟩ := hwhole
  exact ⟨ms, hms, heq ▸ List.prefix_append ..⟩

/-- A message is issued to a connection that does not get it. -/
theorem Whole.issue (h : Whole c log) {m : StoreMessage} (hm : (pack m).length < 2 ^ 63)
    (hc : c'.isOpen = c.isOpen) (hunsent : c'.unsent = c.unsent) (hio : c'.io = c.io) :
    Whole c' ⟨log.sent ++ [], log.responses ++ [m]⟩ := by
  have hsub : ∀ ms : List StoreMessage, ms.Subperm log.responses →
      ms.Subperm (log.responses ++ [m]) :=
    fun ms hms => hms.trans (List.sublist_append_left ..).subperm
  rw [List.append_nil]
  constructor
  · obtain ⟨ms, hms, hpre⟩ := h.untorn
    exact ⟨ms, hsub ms hms, hpre⟩
  · intro hopen
    obtain ⟨ms, hms, heq⟩ := h.whole (hc ▸ hopen)
    exact ⟨ms, hsub ms hms, hunsent ▸ heq⟩
  · rw [hio]
    exact h.small
  · intro m' hm'
    rcases List.mem_append.mp hm' with hm' | hm'
    · exact h.bounded m' hm'
    · rw [List.mem_singleton.mp hm']
      exact hm

/-- A message is written to an open connection between whole messages. -/
theorem Whole.insert (h : Whole c log) (hopen : c.isOpen = true) {m : StoreMessage}
    (hm : (pack m).length < 2 ^ 63) (hlog : log.AtBoundary) (hunsent : c'.unsent = c.unsent)
    (hio : c'.io = c.io) : Whole c' ⟨log.sent ++ pack m, log.responses ++ [m]⟩ := by
  obtain ⟨ms, hms, heq⟩ := h.whole hopen
  obtain ⟨before, hbefore, hsent⟩ := hlog
  have hbounded : ∀ m ∈ ms, (pack m).length < 2 ^ 63 := fun m hm => h.bounded m (hms.subset hm)
  rw [hsent] at heq
  obtain ⟨later, rfl, hlater⟩ :=
    flatMap_pack_append (fun m hm => h.bounded m (hbefore m hm)) hbounded heq
  refine Whole.of_whole ⟨before ++ m :: later, ?_, ?_⟩ (hio ▸ h.small) ?_
  · have hperm : (before ++ m :: later).Perm (before ++ later ++ [m]) := by
      rw [List.append_assoc]
      exact List.Perm.append_left before (List.perm_append_singleton m later).symm
    exact hperm.subperm.trans (List.Subperm.append hms (List.Subperm.refl [m]))
  · show log.sent ++ pack m ++ c'.unsent = _
    rw [hunsent, hlater, hsent, List.flatMap_append, List.flatMap_cons, List.append_assoc]
  · intro m' hm'
    rcases List.mem_append.mp hm' with hm' | hm'
    · exact h.bounded m' hm'
    · rw [List.mem_singleton.mp hm']
      exact hm

theorem unsent_of_phase (h : ∀ epollOut offset last, c.phase ≠ .flushing epollOut offset last) :
    c.unsent = c.io.sendBuf := by
  unfold unsent
  split
  next epollOut offset last heq => exact absurd heq (h epollOut offset last)
  next => rfl

theorem isOpen_register (fd : Int32) (keys : Option (List Key)) :
    (c.register fd keys).isOpen = c.isOpen := by
  cases keys <;> rfl

theorem unsent_wake (own : Bool) (t : ℕ) (key : Key) : (c.wake own t key).unsent = c.unsent := by
  unfold unsent wake
  cases c.phase with
  | wakeup epollOut key response =>
    simp only [afterWakeup]
    split_ifs <;> rfl
  | _ => rfl

/-- One `write` of `FlushSendBuf` takes the next bytes of the buffer. -/
theorem writeAt_append {ctx : ClientIoContext} {offset : UInt32} {accepted : ℕ}
    (h : ctx.sendBuf.length < 2 ^ 32) (hne : (ctx.writeAt offset accepted).isEmpty = false) :
    ctx.writeAt offset accepted ++
        ctx.sendBuf.drop (offset + UInt32.ofNat (ctx.writeAt offset accepted).length).toNat
      = ctx.sendBuf.drop offset.toNat := by
  have hlen : (ctx.writeAt offset accepted).length ≤ ctx.sendBuf.length - offset.toNat := by
    rw [ClientIoContext.writeAt, List.length_take, List.length_drop]
    exact Nat.min_le_right ..
  have hpos : 0 < (ctx.writeAt offset accepted).length := by
    rw [List.length_pos_iff]
    rintro heq
    rw [heq] at hne
    cases hne
  have hsum : (offset + UInt32.ofNat (ctx.writeAt offset accepted).length).toNat
      = offset.toNat + (ctx.writeAt offset accepted).length := by
    rw [UInt32.toNat_add, UInt32.toNat_ofNat', Nat.mod_eq_of_lt (by omega), Nat.mod_eq_of_lt]
    omega
  have htake : ctx.writeAt offset accepted
      = (ctx.sendBuf.drop offset.toNat).take (ctx.writeAt offset accepted).length := by
    rw [ClientIoContext.writeAt, List.length_take]
    exact List.take_eq_take_min ..
  rw [hsum, ← List.drop_drop]
  nth_rewrite 1 [htake]
  exact List.take_append_drop ..

theorem length_stopWaiting (fd : Int32) :
    (pack { mt := .wait, fd := fd, values := [[keysStopWaiting]] }).length
      = (pack { mt := .wait, values := [[keysStopWaiting]] }).length := by
  rw [length_pack, length_pack]
  rfl

theorem length_stopWaiting_lt (fd : Int32) :
    (pack { mt := .wait, fd := fd, values := [[keysStopWaiting]] }).length < 2 ^ 63 := by
  rw [length_pack]
  show 38 < 2 ^ 63
  decide

/-- Intact steps keep messages whole.  A thread that processes an event is not flushing already, and
it flushes open connections only. -/
theorem Whole.step {o : Observation} {bytes : Bytes} (h : Whole c log) (hintact : c.Intact log o)
    (hevent : ∀ events chunks, o = .event events chunks → c.phase = .away)
    (hflush : ∀ accepted, o = .flush accepted → c.isOpen = true)
    (hstep : c.step o = some (c', bytes)) : Whole c' (c.logAfter log bytes o) := by
  cases o with
  | connect =>
    simp only [Connection.step] at hstep
    split_ifs at hstep
    obtain ⟨rfl, rfl⟩ := Prod.mk.inj (Option.some.inj hstep)
    have hempty : c.io.sendBuf = [] := hintact
    refine Whole.of_whole ⟨[], List.Subperm.refl [], ?_⟩ h.small (fun m hm => by cases hm)
    show ({ c with isOpen := true } : Connection).unsent = []
    unfold unsent
    split
    · show c.io.sendBuf.drop _ = []
      rw [hempty, List.drop_nil]
    · exact hempty
  | hangUp =>
    simp only [Connection.step] at hstep
    split_ifs at hstep
    obtain ⟨rfl, rfl⟩ := Prod.mk.inj (Option.some.inj hstep)
    exact h.quiet (fun hc => by cases hc) (fun hc => by cases hc) le_rfl
  | event events chunks =>
    have haway := hevent events chunks rfl
    have hunsent : c.unsent = c.io.sendBuf := unsent_of_phase fun _ _ _ => by rw [haway]; simp
    simp only [Connection.step] at hstep
    split_ifs at hstep
    · obtain ⟨io, hio, heq⟩ := Option.map_eq_some_iff.mp hstep
      obtain ⟨rfl, rfl⟩ := Prod.mk.inj heq
      have hsame := ClientIoContext.sameOutput_receiveData hio
      refine h.quiet (fun hc => hc) (fun _ => ?_) (by rw [hsame.1])
      rw [hunsent]
      exact hsame.1
    · obtain ⟨rfl, rfl⟩ := Prod.mk.inj (Option.some.inj hstep)
      refine h.quiet (fun hc => hc) (fun _ => ?_) le_rfl
      rw [hunsent]
      unfold unsent afterInput
      split_ifs
      · exact List.drop_zero
      · rfl
  | serve keyStore =>
    simp only [Connection.step] at hstep
    split at hstep
    next epollOut hphase =>
      have hunsent : c.unsent = c.io.sendBuf := unsent_of_phase fun _ _ _ => by rw [hphase]; simp
      split at hstep
      · obtain ⟨rfl, rfl⟩ := Prod.mk.inj (Option.some.inj hstep)
        refine h.quiet (fun hc => hc) (fun _ => ?_) le_rfl
        rw [hunsent]
        unfold unsent afterInput
        split_ifs
        · exact List.drop_zero
        · rfl
      · obtain ⟨handled, -, heq⟩ := Option.map_eq_some_iff.mp hstep
        obtain ⟨rfl, rfl⟩ := Prod.mk.inj heq
        refine h.quiet (fun hc => ?_) (fun _ => ?_) le_rfl
        · rwa [isOpen_register] at hc
        · rw [hunsent]
          refine unsent_of_phase fun _ _ _ => ?_
          show Connection.afterHandler epollOut handled ≠ _
          unfold Connection.afterHandler
          split <;> simp
    next => cases hstep
  | woken own t key =>
    obtain ⟨rfl, rfl⟩ := Prod.mk.inj (Option.some.inj hstep)
    exact h.quiet (fun hc => hc) (fun _ => unsent_wake own t key) le_rfl
  | notify t accepted =>
    simp only [Connection.step] at hstep
    split at hstep
    next fd fds hstop =>
      obtain ⟨rfl, rfl⟩ := Prod.mk.inj (Option.some.inj hstep)
      have hissued : c.issued (.notify t accepted)
          = [{ mt := .wait, fd := fd, values := [[keysStopWaiting]] }] := by
        simp only [issued, hstop]
      show Whole _ ⟨_, log.responses ++ c.issued (.notify t accepted)⟩
      rw [hissued]
      split_ifs with hopen
      · rcases hintact hopen with rfl | ⟨hlen, hlog⟩
        · rw [List.take_zero]
          exact h.issue (length_stopWaiting_lt fd) rfl rfl rfl
        · rw [List.take_of_length_le ((length_stopWaiting fd).trans_le hlen)]
          exact h.insert hopen (length_stopWaiting_lt fd) hlog rfl rfl
      · exact h.issue (length_stopWaiting_lt fd) rfl rfl rfl
    next => cases hstep
  | notified =>
    simp only [Connection.step] at hstep
    split at hstep
    next epollOut response hphase =>
      obtain ⟨rfl, rfl⟩ := Prod.mk.inj (Option.some.inj hstep)
      refine h.quiet (fun hc => hc) (fun _ => ?_) le_rfl
      rw [unsent_of_phase (c := c) fun _ _ _ => by rw [hphase]; simp]
      rfl
    next => cases hstep
  | respond =>
    simp only [Connection.step] at hstep
    split at hstep
    next epollOut response hphase =>
      have hunsent : c.unsent = c.io.sendBuf := unsent_of_phase fun _ _ _ => by rw [hphase]; simp
      split_ifs at hstep with hmt
      · obtain ⟨rfl, rfl⟩ := Prod.mk.inj (Option.some.inj hstep)
        have hissued : c.issued .respond = [] := by simp only [issued, hphase, hmt, if_true]
        show Whole _ ⟨log.sent ++ [], log.responses ++ c.issued .respond⟩
        rw [hissued]
        refine h.quiet (fun hc => hc) (fun _ => ?_) le_rfl
        rw [hunsent]
        rfl
      · obtain ⟨rfl, rfl⟩ := Prod.mk.inj (Option.some.inj hstep)
        have hissued : c.issued .respond = [response] := by simp only [issued, hphase, hmt, if_false]
        have hsmall : c.io.sendBuf.length + (pack response).length < 2 ^ 32 := by
          exact hintact response (by rw [hphase]; rfl) hmt
        show Whole _ ⟨log.sent ++ [], log.responses ++ c.issued .respond⟩
        rw [hissued]
        have hquiet : Whole c ⟨log.sent ++ [], log.responses ++ [response]⟩ :=
          h.issue (by omega) rfl rfl rfl
        refine ⟨hquiet.untorn, fun hopen => ?_, ?_, hquiet.bounded⟩
        · -- the response stands behind everything else
          obtain ⟨ms, hms, heq⟩ := h.whole hopen
          refine ⟨ms ++ [response], hms.append (List.Subperm.refl [response]), ?_⟩
          show log.sent ++ [] ++ (c.io.sendBuf ++ pack response).drop (0 : UInt32).toNat = _
          rw [List.append_nil, UInt32.toNat_zero, List.drop_zero, ← List.append_assoc, ← hunsent, heq,
            List.flatMap_append, List.flatMap_singleton]
        · show (c.io.sendBuf ++ pack response).length < 2 ^ 32
          rw [List.length_append]
          exact hsmall
    next => cases hstep
  | flush accepted =>
    simp only [Connection.step] at hstep
    split at hstep
    next epollOut offset last hphase =>
      have hunsent : c.unsent = c.io.sendBuf.drop offset.toNat := by
        unfold unsent
        rw [hphase]
      by_cases hdata : (c.io.writeAt offset accepted).isEmpty = true
      · rw [if_pos hdata] at hstep
        obtain ⟨rfl, rfl⟩ := Prod.mk.inj (Option.some.inj hstep)
        refine h.quiet (fun hc => hc) (fun _ => ?_) ?_
        · rw [hunsent]
          refine unsent_of_phase fun _ _ _ => ?_
          show (if last = true then Phase.finishing else Phase.serving epollOut) ≠ _
          split_ifs <;> simp
        · show (c.io.sendBuf.drop offset.toNat).length ≤ _
          rw [List.length_drop]
          exact Nat.sub_le ..
      · rw [if_neg hdata] at hstep
        obtain ⟨rfl, rfl⟩ := Prod.mk.inj (Option.some.inj hstep)
        obtain ⟨ms, hms, heq⟩ := h.whole (hflush accepted rfl)
        rw [Bool.not_eq_true] at hdata
        show Whole _ ⟨log.sent ++ c.io.writeAt offset accepted, log.responses ++ []⟩
        rw [List.append_nil]
        refine Whole.of_whole ⟨ms, hms, ?_⟩ h.small h.bounded
        show log.sent ++ c.io.writeAt offset accepted ++ c.io.sendBuf.drop
          (offset + UInt32.ofNat (c.io.writeAt offset accepted).length).toNat = _
        rw [List.append_assoc, writeAt_append h.small hdata, ← hunsent, heq]
    next => cases hstep
  | finish closed =>
    simp only [Connection.step] at hstep
    split at hstep
    next hphase =>
      split_ifs at hstep
      · obtain ⟨rfl, rfl⟩ := Prod.mk.inj (Option.some.inj hstep)
        exact h.quiet (fun hc => by cases hc) (fun hc => by cases hc) (Nat.zero_le _)
      · obtain ⟨rfl, rfl⟩ := Prod.mk.inj (Option.some.inj hstep)
        refine h.quiet (fun hc => hc) (fun _ => ?_) le_rfl
        rw [unsent_of_phase (c := c) fun _ _ _ => by rw [hphase]; simp]
        rfl
    next => cases hstep

end Connection

/-! ### Deciding where a message ends -/

/-- Whether `bytes` are whole messages of the list; every round takes one off. -/
def isWhole (responses : List StoreMessage) : ℕ → Bytes → Bool
  | 0, bytes => bytes.isEmpty
  | fuel + 1, bytes =>
    bytes.isEmpty || responses.any fun m =>
      (pack m).isPrefixOf bytes && isWhole responses fuel (bytes.drop (pack m).length)

theorem isWhole_iff (responses : List StoreMessage) {fuel : ℕ} {bytes : Bytes}
    (h : bytes.length ≤ fuel) : isWhole responses fuel bytes = true ↔
      ∃ ms : List StoreMessage, (∀ m ∈ ms, m ∈ responses) ∧ bytes = ms.flatMap pack := by
  induction fuel generalizing bytes with
  | zero =>
    have hnil : bytes = [] := List.length_eq_zero_iff.mp (Nat.le_zero.mp h)
    subst hnil
    exact ⟨fun _ => ⟨[], by simp, rfl⟩, fun _ => rfl⟩
  | succ fuel ih =>
    have hdrop : ∀ m : StoreMessage, bytes ≠ [] → (bytes.drop (pack m).length).length ≤ fuel := by
      intro m hne
      have hpos := List.length_pos_iff.mpr (Connection.pack_ne_nil m)
      have hpos' := List.length_pos_iff.mpr hne
      rw [List.length_drop]
      omega
    by_cases hnil : bytes = []
    · subst hnil
      exact ⟨fun _ => ⟨[], by simp, rfl⟩, fun _ => rfl⟩
    · rw [isWhole, List.isEmpty_eq_false_iff.mpr hnil, Bool.false_or, List.any_eq_true]
      constructor
      · rintro ⟨m, hm, hrest⟩
        rw [Bool.and_eq_true, List.isPrefixOf_iff_prefix, ih (hdrop m hnil)] at hrest
        obtain ⟨⟨rest, rfl⟩, ms, hms, heq⟩ := hrest
        rw [List.drop_left] at heq
        refine ⟨m :: ms, List.forall_mem_cons.mpr ⟨hm, hms⟩, ?_⟩
        rw [List.flatMap_cons, heq]
      · rintro ⟨ms, hms, rfl⟩
        cases ms with
        | nil => exact absurd rfl hnil
        | cons m ms =>
          rw [List.forall_mem_cons] at hms
          refine ⟨m, hms.1, ?_⟩
          rw [Bool.and_eq_true, List.isPrefixOf_iff_prefix, ih (hdrop m hnil), List.flatMap_cons,
            List.drop_left]
          exact ⟨List.prefix_append .., ms, hms.2, rfl⟩

instance (log : Log) : Decidable log.AtBoundary :=
  decidable_of_iff _ (isWhole_iff log.responses (le_refl log.sent.length))

instance (c : Connection) (log : Log) : ∀ o : Observation, Decidable (c.Intact log o)
  | .connect => inferInstanceAs (Decidable (_ = _))
  | .notify _ _ => inferInstanceAs (Decidable (_ → _))
  | .respond => inferInstanceAs (Decidable (∀ _ ∈ c.phase.response?, _))
  -- Not by the instance for `∀ offset : UInt64`, which goes through all numbers.
  | .flush _ => Option.decidableForallMem c.phase.lastOffset?
  | .hangUp => isTrue trivial
  | .event _ _ => isTrue trivial
  | .serve _ => isTrue trivial
  | .woken _ _ _ => isTrue trivial
  | .notified => isTrue trivial
  | .finish _ => isTrue trivial

namespace Server

variable {threadNum : ℕ}

/-! ### The server with its logs -/

/-- The server, and the log of the connection on every descriptor. -/
structure Logged where
  server : Server := {}
  logs : Fd → Log := fun _ => {}

/-- A step of the server and of the logs. -/
def logged (threadNum : ℕ) (a : Logged) (l : Label) : Option Logged :=
  (exec threadNum a.server l).map fun (s, out) =>
    ⟨s, fun fd =>
      match a.server.observe fd l with
      | some o => (a.server.connection threadNum fd).logAfter (a.logs fd) (bytesTo fd out) o
      | none => a.logs fd⟩

/-- A connection with unsent bytes whose event has been processed is registered for `EPOLLOUT`, and
what was written to a connection is a prefix of whole messages. -/
structure OutputOk (threadNum : ℕ) (a : Logged) : Prop where
  registered : ∀ fd mask, a.server.registered.lookup fd = some mask →
    (a.server.pc (worker threadNum fd)).fd? ≠ some fd → (a.server.ctx fd).sendBuf ≠ [] →
    mask.epollOut = true
  untorn : ∀ fd, (a.logs fd).Untorn

/-- `Connection.Intact`, for the connection that a step is about. -/
def Intact (threadNum : ℕ) (a : Logged) : Label → Prop
  | .connect fd => (a.server.connection threadNum fd).Intact (a.logs fd) .connect
  | .notify t accepted => ∀ client ∈ (a.server.pc t).stopping.head?,
    (a.server.connection threadNum client.1).Intact (a.logs client.1) (.notify t accepted)
  | .respond t => ∀ fd ∈ (a.server.pc t).fd?,
    (a.server.connection threadNum fd).Intact (a.logs fd) .respond
  | .flush t accepted => ∀ fd ∈ (a.server.pc t).fd?,
    (a.server.connection threadNum fd).Intact (a.logs fd) (.flush accepted)
  | _ => True

theorem intact_of_observe {a : Logged} {l : Label} {fd : Fd} {o : Observation}
    (h : Intact threadNum a l) (ho : a.server.observe fd l = some o) :
    (a.server.connection threadNum fd).Intact (a.logs fd) o := by
  unfold observe at ho
  split at ho
  next fd' =>
    split_ifs at ho with hfd
    subst hfd
    cases ho
    exact h
  next => split_ifs at ho; cases ho; exact trivial
  next => split_ifs at ho; cases ho; exact trivial
  next => split_ifs at ho; cases ho; exact trivial
  next t =>
    split at ho
    · cases ho
      exact trivial
    · cases ho
  next t accepted =>
    split at ho
    next job client clients response hpc =>
      split_ifs at ho with hfd
      subst hfd
      cases ho
      exact h client (by rw [hpc]; rfl)
    next =>
      split_ifs at ho
      cases ho
      exact trivial
    next => cases ho
  next t =>
    split_ifs at ho with hfd
    cases ho
    exact h fd hfd
  next t accepted =>
    split_ifs at ho with hfd
    cases ho
    exact h fd hfd
  next t ok =>
    split at ho
    · split_ifs at ho
      cases ho
      exact trivial
    · cases ho

theorem observe_flush {s : Server} {l : Label} {fd : Fd} {accepted : ℕ}
    (h : s.observe fd l = some (.flush accepted)) : ∃ t, (s.pc t).fd? = some fd := by
  unfold observe at h
  split at h
  next => split_ifs at h; cases h
  next => split_ifs at h; cases h
  next => split_ifs at h; cases h
  next => split_ifs at h; cases h
  next => split at h <;> cases h
  next =>
    split at h
    · split_ifs at h; cases h
    · split_ifs at h; cases h
    · cases h
  next => split_ifs at h; cases h
  next t _ =>
    split_ifs at h with hfd
    exact ⟨t, hfd⟩
  next =>
    split at h
    · split_ifs at h; cases h
    · cases h

/-! ### The registered events -/

/-- Between events, unsent bytes come with `EPOLLOUT`; while the end of an event is outstanding, the
events to be set say so. -/
structure EventInv (threadNum : ℕ) (s : Server) : Prop where
  quiet : ∀ fd, (s.pc (worker threadNum fd)).fd? ≠ some fd → (s.ctx fd).sendBuf ≠ [] →
    (s.ctx fd).currentEvents.epollOut = true
  mask : ∀ fd mask, s.registered.lookup fd = some mask →
    mask = .all ∨ mask = (s.ctx fd).currentEvents
  finishing : ∀ t fd setEvents, s.pc t = .finishing fd setEvents → (s.ctx fd).sendBuf ≠ [] →
    setEvents.epollOut = true

theorem EventInv.registered_epollOut {s : Server} (h : EventInv threadNum s) {fd : Fd}
    {mask : EventMask} (hmask : s.registered.lookup fd = some mask)
    (hpc : (s.pc (worker threadNum fd)).fd? ≠ some fd) (hbuf : (s.ctx fd).sendBuf ≠ []) :
    mask.epollOut = true := by
  rcases h.mask fd mask hmask with rfl | rfl
  · rfl
  · exact h.quiet fd hpc hbuf

/-- A thread works on its connection without changing the registered events. -/
theorem EventInv.of_work {s s' : Server} {t : ℕ} {pc : Pc} {fd : Fd} (h : EventInv threadNum s)
    (hs : ThreadInv threadNum s) (howner : worker threadNum fd = t) (hreg : s'.registered = s.registered)
    (hpc : s'.pc = (s.setPc t pc).pc) (hfd : pc.fd? = some fd)
    (hold : ∀ fd', (s.pc t).fd? = some fd' → fd' = fd)
    (hctx : ∀ fd', fd' ≠ fd → s'.ctx fd' = s.ctx fd')
    (hevents : (s'.ctx fd).currentEvents = (s.ctx fd).currentEvents)
    (hfinish : ∀ fd' setEvents, pc = .finishing fd' setEvents → (s'.ctx fd').sendBuf ≠ [] →
      setEvents.epollOut = true) : EventInv threadNum s' where
  quiet fd' hpc' hbuf := by
    by_cases hfd' : fd' = fd
    · subst hfd'
      rw [howner, hpc, setPc_pc_self] at hpc'
      exact absurd hfd hpc'
    · rw [hctx fd' hfd'] at hbuf ⊢
      refine h.quiet fd' (fun hw => ?_) hbuf
      by_cases ht : worker threadNum fd' = t
      · rw [ht] at hw
        exact hfd' (hold fd' hw)
      · rw [hpc, setPc_pc_of_ne ht] at hpc'
        exact hpc' hw
  mask fd' mask hmask := by
    rw [hreg] at hmask
    by_cases hfd' : fd' = fd
    · subst hfd'
      rw [hevents]
      exact h.mask fd' mask hmask
    · rw [hctx fd' hfd']
      exact h.mask fd' mask hmask
  finishing t' fd' setEvents hpc' hbuf := by
    by_cases ht : t' = t
    · rw [ht, hpc, setPc_pc_self] at hpc'
      exact hfinish fd' setEvents hpc' hbuf
    · rw [hpc, setPc_pc_of_ne ht] at hpc'
      have hne : fd' ≠ fd := by
        rintro rfl
        exact ht ((hs.owner t' fd' (by rw [hpc']; rfl)).symm.trans howner)
      rw [hctx fd' hne] at hbuf
      exact h.finishing t' fd' setEvents hpc' hbuf

/-- The same when the thread stays with its connection and the buffers are not touched. -/
theorem EventInv.of_stay {s s' : Server} {t : ℕ} {pc : Pc} {fd : Fd} (h : EventInv threadNum s)
    (hs : ThreadInv threadNum s) (hreg : s'.registered = s.registered)
    (hpc : s'.pc = (s.setPc t pc).pc) (hold : (s.pc t).fd? = some fd) (hfd : pc.fd? = some fd)
    (hctx : ∀ fd', s'.ctx fd' = s.ctx fd')
    (hfinish : ∀ fd' setEvents, pc = .finishing fd' setEvents → (s.ctx fd').sendBuf ≠ [] →
      setEvents.epollOut = true) : EventInv threadNum s' := by
  refine h.of_work hs (hs.owner t fd hold) hreg hpc hfd (fun fd' h' => ?_) (fun fd' _ => hctx fd')
    (by rw [hctx]) (fun fd' setEvents h' hbuf => ?_)
  · rw [hold, Option.some_inj] at h'
    exact h'.symm
  · rw [hctx] at hbuf
    exact hfinish fd' setEvents h' hbuf

/-- A thread is done with an event. -/
theorem EventInv.of_done {s s' : Server} {t : ℕ} {fd : Fd} (h : EventInv threadNum s)
    (hs : ThreadInv threadNum s) (hold : (s.pc t).fd? = some fd)
    (hpc : s'.pc = (s.setPc t .idle).pc) (hctx : ∀ fd', fd' ≠ fd → s'.ctx fd' = s.ctx fd')
    (hreg : ∀ fd', fd' ≠ fd → s'.registered.lookup fd' = s.registered.lookup fd')
    (hquiet : (s'.ctx fd).sendBuf ≠ [] → (s'.ctx fd).currentEvents.epollOut = true)
    (hmask : ∀ mask, s'.registered.lookup fd = some mask →
      mask = .all ∨ mask = (s'.ctx fd).currentEvents) : EventInv threadNum s' where
  quiet fd' hpc' hbuf := by
    by_cases hfd' : fd' = fd
    · subst hfd'
      exact hquiet hbuf
    · rw [hctx fd' hfd'] at hbuf ⊢
      refine h.quiet fd' (fun hw => ?_) hbuf
      by_cases ht : worker threadNum fd' = t
      · rw [ht, hold, Option.some_inj] at hw
        exact hfd' hw.symm
      · rw [hpc, setPc_pc_of_ne ht] at hpc'
        exact hpc' hw
  mask fd' mask hmask' := by
    by_cases hfd' : fd' = fd
    · subst hfd'
      exact hmask mask hmask'
    · rw [hreg fd' hfd'] at hmask'
      rw [hctx fd' hfd']
      exact h.mask fd' mask hmask'
  finishing t' fd' setEvents hpc' hbuf := by
    by_cases ht : t' = t
    · rw [ht, hpc, setPc_pc_self] at hpc'
      cases hpc'
    · rw [hpc, setPc_pc_of_ne ht] at hpc'
      have hne : fd' ≠ fd := by
        rintro rfl
        exact ht ((hs.owner t' fd' (by rw [hpc']; rfl)).symm.trans (hs.owner t fd' hold))
      rw [hctx fd' hne] at hbuf
      exact h.finishing t' fd' setEvents hpc' hbuf

theorem afterInput_finishing {job : Job} {setEvents setEvents' : EventMask} {fd : Fd}
    (h : afterInput job setEvents = .finishing fd setEvents') : fd = job.fd ∧ setEvents' = setEvents := by
  unfold afterInput at h
  split_ifs at h
  cases h
  exact ⟨rfl, rfl⟩

theorem currentEvents_setCtx {s : Server} {fd : Fd} {ctx : ClientIoContext}
    (h : ctx.currentEvents = (s.ctx fd).currentEvents) :
    ((s.setCtx fd ctx).ctx fd).currentEvents = (s.ctx fd).currentEvents := by
  rw [ctx_setCtx_self, h]

theorem eventInv_init : EventInv threadNum {} where
  quiet _ _ h := absurd rfl h
  mask _ _ h := by cases h
  finishing _ _ _ h := by cases h

theorem eventInv_step {a : Logged} {s' : Server} {l : Label} {out : Output}
    (hs : ThreadInv threadNum a.server) (h : EventInv threadNum a.server)
    (hintact : Intact threadNum a l) (hstep : Step threadNum a.server l s' out) :
    EventInv threadNum s' := by
  obtain ⟨s, logs⟩ := a
  cases hstep with
  | @connect fd hfd =>
    refine ⟨h.quiet, fun fd' mask hmask => ?_, h.finishing⟩
    by_cases hfd' : fd' = fd
    · subst hfd'
      rw [AList.lookup_insert, Option.some_inj] at hmask
      exact .inl hmask.symm
    · rw [AList.lookup_insert_ne hfd'] at hmask
      exact h.mask fd' mask hmask
  | @hangUp fd hfd hpc =>
    refine ⟨h.quiet, fun fd' mask hmask => ?_, h.finishing⟩
    by_cases hfd' : fd' = fd
    · subst hfd'
      rw [AList.lookup_erase] at hmask
      cases hmask
    · rw [AList.lookup_erase_ne hfd'] at hmask
      exact h.mask fd' mask hmask
  | @receive fd events chunks ctx hfd hpc hin hctx =>
    refine h.of_work hs rfl rfl rfl rfl (fun fd' h' => ?_) (fun fd' hne => ctx_setCtx_of_ne hne ctx) ?_
      (by simp)
    · rw [hpc] at h'
      cases h'
    · exact currentEvents_setCtx (ClientIoContext.sameOutput_receiveData hctx).2
  | @noInput fd events chunks hfd hpc hin =>
    have hself : ∀ fd', (s.setCtx fd (s.ctx fd)).ctx fd' = s.ctx fd' := by
      intro fd'
      by_cases hfd' : fd' = fd
      · rw [hfd', ctx_setCtx_self]
      · exact ctx_setCtx_of_ne hfd' _
    refine h.of_work hs rfl rfl rfl (fd?_afterInput _ _) (fun fd' h' => ?_) (fun fd' _ => hself fd')
      (congrArg _ (hself fd)) (fun fd' setEvents hfin hbuf => ?_)
    · rw [hpc] at h'
      cases h'
    · -- nothing was read: the events stay, and they were right before
      obtain ⟨hfd', rfl⟩ := afterInput_finishing hfin
      have hfd' : fd' = fd := hfd'
      subst hfd'
      refine h.quiet fd' (by rw [hpc]; simp [Pc.fd?]) fun hempty => hbuf ?_
      exact (congrArg _ (hself fd')).trans hempty
  | @handle t job request requests handled hpc hreq hhandled =>
    have hold : (s.pc t).fd? = some job.fd := by rw [hpc]; rfl
    refine h.of_work hs (hs.owner t job.fd hold) rfl rfl (fd?_afterHandler job handled)
      (fun fd' h' => ?_) (fun fd' hne => ctx_setCtx_of_ne hne _) ?_ (fun fd' setEvents hfin => ?_)
    · rw [hold, Option.some_inj] at h'
      exact h'.symm
    · exact currentEvents_setCtx (s := s) rfl
    · unfold afterHandler at hfin
      split at hfin <;> cases hfin
  | @served t job hpc hreq =>
    refine h.of_stay hs rfl rfl (by rw [hpc]; rfl) (fd?_afterInput _ _) (fun _ => rfl) ?_
    intro fd' setEvents hfin hbuf
    obtain ⟨rfl, rfl⟩ := afterInput_finishing hfin
    rw [if_neg]
    · rfl
    · simpa [ClientIoContext.sendBufEmpty] using hbuf
  | wakeup hpc => exact h.of_stay hs rfl rfl (by rw [hpc]; rfl) rfl (fun _ => rfl) (by simp)
  | notify hpc => exact h.of_stay hs rfl rfl (by rw [hpc]; rfl) rfl (fun _ => rfl) (by simp)
  | notified hpc => exact h.of_stay hs rfl rfl (by rw [hpc]; rfl) rfl (fun _ => rfl) (by simp)
  | skip hpc => exact h.of_stay hs rfl rfl (by rw [hpc]; rfl) rfl (fun _ => rfl) (by simp)
  | @respond t job response hpc hmt =>
    have hold : (s.pc t).fd? = some job.fd := by rw [hpc]; rfl
    refine h.of_work hs (hs.owner t job.fd hold) rfl rfl rfl (fun fd' h' => ?_)
      (fun fd' hne => ctx_setCtx_of_ne hne _) ?_ (by simp)
    · rw [hold, Option.some_inj] at h'
      exact h'.symm
    · exact currentEvents_setCtx (s := s) rfl
  | @flushed t accepted job offset last hpc hdata =>
    have hold : (s.pc t).fd? = some job.fd := by rw [hpc]; rfl
    have hctx := ctx_setCtx_self s job.fd ((s.ctx job.fd).eraseSent offset)
    refine h.of_work hs (hs.owner t job.fd hold) rfl rfl (by split_ifs <;> rfl) (fun fd' h' => ?_)
      (fun fd' hne => ctx_setCtx_of_ne hne _) (currentEvents_setCtx (s := s) rfl)
      (fun fd' setEvents hfin hbuf => ?_)
    · rw [hold, Option.some_inj] at h'
      exact h'.symm
    · split_ifs at hfin with hlast
      · -- the `EPOLLOUT` branch has sent everything
        cases hfin
        subst hlast
        have hfull := hintact job.fd hold
        have hphase : (s.connection threadNum job.fd).phase = .flushing job.epollOut offset true := by
          rw [phase_connection (hs.owner t job.fd hold) hpc]
          exact if_pos rfl
        have hempty : (s.ctx job.fd).sendBuf.drop offset.toNat = [] :=
          hfull offset (by rw [hphase]; rfl) (List.isEmpty_iff.mp hdata)
        have hbuf' : ((s.ctx job.fd).eraseSent offset).sendBuf ≠ [] := by
          rw [← hctx]
          exact hbuf
        exact absurd hempty hbuf'
  | flush hpc => exact h.of_stay hs rfl rfl (by rw [hpc]; rfl) rfl (fun _ => rfl) (by simp)
  | @unchanged t ok fd setEvents hpc hevents =>
    refine h.of_done hs (by rw [hpc]; rfl) rfl (fun _ _ => rfl) (fun _ _ => rfl) (fun hbuf => ?_)
      (h.mask fd)
    show (s.ctx fd).currentEvents.epollOut = true
    rw [← hevents]
    exact h.finishing t fd setEvents hpc hbuf
  | @modify t fd setEvents hpc hevents =>
    have hctx := ctx_setCtx_self s fd { s.ctx fd with currentEvents := setEvents }
    refine h.of_done hs (by rw [hpc]; rfl) rfl (fun fd' hne => ctx_setCtx_of_ne hne _)
      (fun fd' hne => AList.lookup_insert_ne hne) (fun hbuf => ?_) (fun mask hmask => .inr ?_)
    · have hbuf' : (s.ctx fd).sendBuf ≠ [] := fun heq => hbuf ((congrArg _ hctx).trans heq)
      exact (congrArg (fun ctx => ctx.currentEvents.epollOut) hctx).trans
        (h.finishing t fd setEvents hpc hbuf')
    · rw [AList.lookup_insert, Option.some_inj] at hmask
      rw [← hmask]
      exact (congrArg ClientIoContext.currentEvents hctx).symm
  | @modifyFail t fd setEvents hpc hevents =>
    refine h.of_done hs (by rw [hpc]; rfl) rfl (fun fd' hne => ?_)
      (fun fd' hne => AList.lookup_erase_ne hne) (fun hbuf => absurd ?_ hbuf) (fun mask hmask => ?_)
    · show ((s.clientCtx.erase fd).lookup fd').getD {} = _
      rw [AList.lookup_erase_ne hne]
      rfl
    · show (((s.clientCtx.erase fd).lookup fd).getD {}).sendBuf = []
      rw [AList.lookup_erase]
      rfl
    · rw [AList.lookup_erase] at hmask
      cases hmask

/-! ### Runs -/

structure LoggedInv (threadNum : ℕ) (a : Logged) : Prop where
  threads : ThreadInv threadNum a.server
  events : EventInv threadNum a.server
  whole : ∀ fd, (a.server.connection threadNum fd).Whole (a.logs fd)

theorem loggedInv_init : LoggedInv threadNum {} where
  threads := threadInv_init
  events := eventInv_init
  whole fd := by
    have hwaiting : NoWaiting threadNum {} fd :=
      ⟨fun _ h => absurd h List.not_mem_nil, fun _ h => absurd h List.not_mem_nil,
        fun _ _ _ h => absurd h List.not_mem_nil⟩
    have hempty : ({} : Server).connection threadNum fd = {} :=
      connection_eq_empty threadInv_init (fun h => by cases h) ⟨rfl, rfl, rfl, rfl⟩ hwaiting
    show (({} : Server).connection threadNum fd).Whole {}
    rw [hempty]
    exact .init

theorem loggedInv_step {a a' : Logged} {l : Label} (h : LoggedInv threadNum a)
    (hintact : Intact threadNum a l) (hstep : logged threadNum a l = some a') :
    LoggedInv threadNum a' := by
  obtain ⟨⟨s', out⟩, hexec, rfl⟩ := Option.map_eq_some_iff.mp hstep
  have hstep := step_of_exec hexec
  refine ⟨threadInv_step h.threads hstep, eventInv_step h.threads h.events hintact hstep, fun fd => ?_⟩
  have hfollows := connection_step fd h.threads hstep
  show Connection.Whole _ (match a.server.observe fd l with
    | some o => (a.server.connection threadNum fd).logAfter (a.logs fd) (bytesTo fd out) o
    | none => a.logs fd)
  cases ho : a.server.observe fd l with
  | none =>
    rw [ho] at hfollows
    rw [hfollows.1]
    exact h.whole fd
  | some o =>
    rw [ho] at hfollows
    refine (h.whole fd).step (intact_of_observe hintact ho) ?_ ?_ hfollows
    · rintro events chunks rfl
      obtain rfl := label_of_observe_event ho
      have hpc : a.server.pc (worker threadNum fd) = .idle := by
        cases hstep with
        | receive _ hpc => exact hpc
        | noInput _ hpc => exact hpc
      rw [phase_connection rfl hpc]
      exact if_neg (by simp [Pc.fd?])
    · rintro accepted rfl
      obtain ⟨t, ht⟩ := observe_flush ho
      exact decide_eq_true (h.threads.isOpen t fd ht)

/-- In a run whose steps are all intact, the output of the server is complete and untorn. -/
theorem output_of_intact_run {ls : List Label} {a : Logged}
    (hintact : Machine.Guarded (logged threadNum) (Intact threadNum) {} ls)
    (hrun : Machine.run (logged threadNum) {} ls = some a) : OutputOk threadNum a := by
  have hinv : LoggedInv threadNum a :=
    Machine.guarded_run_induction (fun a l a' ha hl hstep => loggedInv_step ha hl hstep)
      loggedInv_init hintact hrun
  exact ⟨fun fd mask hmask hpc hbuf => hinv.events.registered_epollOut hmask hpc hbuf,
    fun fd => (hinv.whole fd).untorn⟩

instance (a : Logged) : ∀ l : Label, Decidable (Intact threadNum a l)
  | .connect fd =>
    inferInstanceAs (Decidable ((a.server.connection threadNum fd).Intact (a.logs fd) .connect))
  | .notify t _ => inferInstanceAs (Decidable (∀ _ ∈ (a.server.pc t).stopping.head?, _))
  | .respond t => inferInstanceAs (Decidable (∀ _ ∈ (a.server.pc t).fd?, _))
  | .flush t _ => inferInstanceAs (Decidable (∀ _ ∈ (a.server.pc t).fd?, _))
  | .hangUp _ => isTrue trivial
  | .event _ _ _ => isTrue trivial
  | .serve _ => isTrue trivial
  | .wakeup _ => isTrue trivial
  | .finish _ _ => isTrue trivial

/-- Connection 4 waits for the key `a`.  The socket takes ten bytes of the reply and the rest of it
with the next event.  Then connection 5 sets the key, and the notification is taken whole. -/
def partialFlush : List Label :=
  [.connect 4, .event 4 .input [pack { mt := .wait, keys := [[97]] }], .serve 0, .respond 0,
    .flush 0 10, .flush 0 0, .serve 0, .finish 0 true, .event 4 ⟨false, true⟩ [], .flush 0 100,
    .flush 0 0, .finish 0 true, .connect 5,
    .event 5 .input [pack { mt := .set, keys := [[97]], values := [[]] }], .serve 1, .wakeup 1,
    .notify 1 100, .notify 1 0]

theorem output_partialFlush :
    ∃ a, Machine.run (logged 4) {} partialFlush = some a ∧
      (a.logs 4).sent = pack { mt := .invalidMsg } ++ pack { mt := .wait, values := [[0]] } ∧
      OutputOk 4 a := by
  have hintact : Machine.Guarded (logged 4) (Intact 4) {} partialFlush := by decide +kernel
  have hsent : (Machine.run (logged 4) {} partialFlush).map (fun a => (a.logs 4).sent)
      = some (pack { mt := .invalidMsg } ++ pack { mt := .wait, values := [[0]] }) := by
    decide +kernel
  obtain ⟨a, ha, hsent⟩ := Option.map_eq_some_iff.mp hsent
  exact ⟨a, ha, hsent, output_of_intact_run hintact ha⟩

/-- The socket takes nothing of a reply, neither at once nor with the `EPOLLOUT` event. -/
def strandedReply : List Label :=
  [.connect 4, .event 4 .input [pack { mt := .get, keys := [[97]] }], .serve 0, .respond 0,
    .flush 0 0, .serve 0, .finish 0 true, .event 4 ⟨false, true⟩ [], .flush 0 0, .finish 0 true]

/-- The socket takes ten bytes of the reply to a `WAIT`, and the notification follows at once. -/
def tornReply : List Label :=
  [.connect 4, .event 4 .input [pack { mt := .wait, keys := [[97]] }], .serve 0, .respond 0,
    .flush 0 10, .connect 5, .event 5 .input [pack { mt := .set, keys := [[97]], values := [[]] }],
    .serve 1, .wakeup 1, .notify 1 100]

theorem not_output_torn :
    (∃ a, Machine.run (logged 4) {} strandedReply = some a ∧ ¬OutputOk 4 a) ∧
      ∃ a, Machine.run (logged 4) {} tornReply = some a ∧ ¬OutputOk 4 a := by
  constructor
  · have hrun : (Machine.run (logged 4) {} strandedReply).map (fun a =>
        (a.server.registered.lookup 4, (a.server.pc 0).fd?, (a.server.ctx 4).sendBuf.isEmpty))
        = some (some .input, none, false) := by decide +kernel
    obtain ⟨a, ha, heq⟩ := Option.map_eq_some_iff.mp hrun
    simp only [Prod.mk.injEq] at heq
    refine ⟨a, ha, fun h => ?_⟩
    have hout := h.registered 4 .input heq.1 (by
      show (a.server.pc 0).fd? ≠ some 4
      rw [heq.2.1]
      simp) (List.isEmpty_eq_false_iff.mp heq.2.2)
    cases hout
  · -- neither of the two messages agrees with what was written
    have hrun : (Machine.run (logged 4) {} tornReply).map (fun a =>
        ((a.logs 4).sent.isEmpty, (a.logs 4).responses.any fun m =>
          (pack m).isPrefixOf (a.logs 4).sent || (a.logs 4).sent.isPrefixOf (pack m)))
        = some (false, false) := by decide +kernel
    obtain ⟨a, ha, heq⟩ := Option.map_eq_some_iff.mp hrun
    simp only [Prod.mk.injEq] at heq
    refine ⟨a, ha, fun h => ?_⟩
    obtain ⟨m, hm, hpre⟩ := (h.untorn 4).exists_first (List.isEmpty_eq_false_iff.mp heq.1)
    have hnone := List.any_eq_false.mp heq.2 m hm
    rw [Bool.not_eq_true, Bool.or_eq_false_iff] at hnone
    rcases hpre with hpre | hpre
    · rw [List.isPrefixOf_iff_prefix.mpr hpre] at hnone
      cases hnone.1
    · rw [List.isPrefixOf_iff_prefix.mpr hpre] at hnone
      cases hnone.2

end Server

end TorchNpu.Store

/-
  Does the reply of `Client::SyncCall` depend on how the bytes of the server are cut into reads?

  The messages of the server are frames on a stream, `done` of which have been unpacked, and
  `responseBuf` is what was read of the next one.  `exists_return` follows the call from there, by
  induction on the reads to come: a read that completes messages ends with one of them, or the call
  comes to a bad end.
-/
import TorchNpu.Store.StoreClient
import TorchNpu.Store.Spec.Packer

namespace TorchNpu.Store

/-! ### Runs -/

namespace SyncCall

/-- Steps lead from one state to the other. -/
def Reaches (s t : SyncCall) : Prop :=
  ∃ n, step^[n] s = t

theorem Reaches.refl (s : SyncCall) : s.Reaches s :=
  ⟨0, rfl⟩

theorem Reaches.head {s t : SyncCall} (h : s.step.Reaches t) : s.Reaches t := by
  obtain ⟨n, hn⟩ := h
  exact ⟨n + 1, hn⟩

theorem Reaches.trans {s t u : SyncCall} (hst : s.Reaches t) (htu : t.Reaches u) : s.Reaches u := by
  obtain ⟨n, rfl⟩ := hst
  obtain ⟨k, rfl⟩ := htu
  exact ⟨k + n, Function.iterate_add_apply step k n s⟩

theorem step_of_returned {s : SyncCall} {result : ℤ} (h : s.phase = .returned result) : s.step = s := by
  rw [step, h]

/-- A call returns once. -/
theorem Reaches.eq {s t u : SyncCall} {result result' : ℤ} (ht : s.Reaches t) (hu : s.Reaches u)
    (hresult : t.phase = .returned result) (hresult' : u.phase = .returned result') : t = u := by
  obtain ⟨n, rfl⟩ := ht
  obtain ⟨k, rfl⟩ := hu
  have hstay {v : SyncCall} {x : ℤ} (hv : v.phase = .returned x) (i : ℕ) : step^[i] v = v :=
    Function.iterate_fixed (step_of_returned hv) i
  rcases Nat.le_total n k with hle | hle
  · obtain ⟨i, rfl⟩ := Nat.exists_eq_add_of_le' hle
    rw [Function.iterate_add_apply, hstay hresult]
  · obtain ⟨i, rfl⟩ := Nat.exists_eq_add_of_le' hle
    rw [Function.iterate_add_apply, hstay hresult']

end SyncCall

/-! ### Unpacking messages -/

/-- `Unpack` leaves the message in `response`, behind the keys and values that are there. -/
def accumulate (response message : StoreMessage) : StoreMessage :=
  { message with keys := response.keys ++ message.keys, values := response.values ++ message.values }

theorem keys_foldl_accumulate (messages : List StoreMessage) (response : StoreMessage) :
    (messages.foldl accumulate response).keys = response.keys ++ messages.flatMap StoreMessage.keys := by
  induction messages generalizing response with
  | nil => simp
  | cons message messages ih =>
    rw [List.foldl_cons, ih, List.flatMap_cons, accumulate, List.append_assoc]

theorem values_foldl_accumulate (messages : List StoreMessage) (response : StoreMessage) :
    (messages.foldl accumulate response).values =
      response.values ++ messages.flatMap StoreMessage.values := by
  induction messages generalizing response with
  | nil => simp
  | cons message messages ih =>
    rw [List.foldl_cons, ih, List.flatMap_cons, accumulate, List.append_assoc]

theorem length_pack_pos (message : StoreMessage) : 0 < (pack message).length := by
  rw [length_pack]
  have hbase := baseSize_le_totalSize message
  omega

namespace SyncCall

theorem step_unpack (mt : MessageType) (unread : List ReadResult) (consumed : ℕ) (response : StoreMessage)
    {message : StoreMessage} (tail : Bytes) (hlength : (pack message).length < 2 ^ 63) :
    step { mt, unread, consumed, response, responseBuf := pack message ++ tail, phase := .unpack } =
      { mt, unread, consumed, responseBuf := tail, response := accumulate response message,
        phase := if message.mt = mt then .returned 0 else .unpack } := by
  have hne : (pack message ++ tail).isEmpty = false := by
    have hpos := length_pack_pos message
    rw [List.isEmpty_eq_false_iff_exists_mem]
    exact ⟨(pack message).head (List.ne_nil_of_length_pos hpos), List.mem_append_left _ (List.head_mem _)⟩
  rw [step]
  simp only [hne, Bool.false_eq_true, if_false]
  rw [value_unpack_pack_append hlength]
  simp only
  rw [if_neg (by omega), Int.toNat_natCast, List.drop_left]
  rfl

/-- Messages of other types are skipped. -/
theorem reaches_skip (mt : MessageType) {skipped : List StoreMessage} (tail : Bytes) (unread : List ReadResult)
    (consumed : ℕ) (response : StoreMessage) (hskipped : ∀ message ∈ skipped, message.mt ≠ mt)
    (hlength : ∀ message ∈ skipped, (pack message).length < 2 ^ 63) :
    Reaches
      { mt, unread, consumed, response, responseBuf := skipped.flatMap pack ++ tail, phase := .unpack }
      { mt, unread, consumed, responseBuf := tail, phase := .unpack,
        response := skipped.foldl accumulate response } := by
  induction skipped generalizing response with
  | nil => exact Reaches.refl _
  | cons message skipped ih =>
    rw [List.forall_mem_cons] at hskipped hlength
    apply Reaches.head
    rw [List.flatMap_cons, List.append_assoc, step_unpack _ _ _ _ _ hlength.1, if_neg hskipped.1]
    exact ih (accumulate response message) hskipped.2 hlength.2

end SyncCall

/-! ### Reads -/

/-- Each read, up to the one that takes in the byte before `last`, completes no message or ends with one. -/
def WholeReads (messages : List StoreMessage) (last : ℕ) : ℕ → List Bytes → Prop
  | _, [] => True
  | position, chunk :: chunks =>
    (position < last →
      leftover pack messages (position + chunk.length) = leftover pack messages position + chunk.length ∨
        leftover pack messages (position + chunk.length) = 0) ∧
      WholeReads messages last (position + chunk.length) chunks

instance decidableWholeReads (messages : List StoreMessage) (last : ℕ) :
    ∀ position chunks, Decidable (WholeReads messages last position chunks)
  | _, [] => isTrue trivial
  | position, chunk :: chunks =>
    have := decidableWholeReads messages last (position + chunk.length) chunks
    inferInstanceAs (Decidable (_ ∧ _))

theorem wholeReads_of_le {messages : List StoreMessage} {last position : ℕ} {chunks : List Bytes}
    (h : last ≤ position) : WholeReads messages last position chunks := by
  induction chunks generalizing position with
  | nil => exact trivial
  | cons chunk chunks ih => exact ⟨fun hlt => absurd hlt (not_lt.mpr h), ih (h.trans (Nat.le_add_right _ _))⟩

theorem leftover_of_incomplete {messages rest : List StoreMessage} {done : List StoreMessage} {tail : Bytes}
    (hmessages : messages = done ++ rest) (htail : Incomplete pack tail rest) :
    leftover pack messages ((done.flatMap pack).length + tail.length) = tail.length := by
  rw [hmessages, leftover_append, htail.leftover_eq]

/-- Whether the first elements of a list take in a given one. -/
theorem append_cons_cases {α : Type*} {before after whole later : List α} {a : α}
    (h : before ++ a :: after = whole ++ later) :
    (∃ before', before = whole ++ before' ∧ later = before' ++ a :: after) ∨
      ∃ after', whole = before ++ a :: after' ∧ after = after' ++ later := by
  rcases List.append_eq_append_iff.mp h with ⟨middle, hwhole, hmiddle⟩ | ⟨before', hbefore, hlater⟩
  · cases middle with
    | nil => exact Or.inl ⟨[], by rw [hwhole, List.append_nil, List.append_nil], hmiddle.symm⟩
    | cons a' after' =>
      obtain ⟨rfl, hafter⟩ := List.cons.inj hmiddle
      exact Or.inr ⟨after', hwhole, hafter⟩
  · exact Or.inl ⟨before', hbefore, hlater⟩

theorem full_of_incomplete {rest : List StoreMessage} {tail : Bytes}
    (hlength : ∀ message ∈ rest, (pack message).length < 2 ^ 63) (htail : Incomplete pack tail rest) :
    full tail = false := by
  cases rest with
  | nil =>
    obtain rfl : tail = [] := htail
    rfl
  | cons message rest =>
    have hmessage := hlength message List.mem_cons_self
    exact full_of_prefix_pack (by omega) htail.1 htail.2

namespace SyncCall

theorem step_read (mt : MessageType) (response : StoreMessage) (buf chunk : Bytes) (unread : List ReadResult)
    (consumed : ℕ) :
    step { mt, response, responseBuf := buf, unread := .data chunk :: unread, consumed } =
      { mt, response, responseBuf := buf ++ chunk, unread, consumed := consumed + chunk.length,
        phase := if full (buf ++ chunk) then .unpack else .read } :=
  rfl

/-- The call from a `read` on: it fails, or it returns the reply with what was skipped. -/
theorem exists_return (mt : MessageType) {messages : List StoreMessage} {reply : StoreMessage}
    {rest : List StoreMessage} (hreply : reply.mt = mt)
    (hlength : ∀ message ∈ messages, (pack message).length < 2 ^ 63) {chunks : List Bytes}
    {done skipped : List StoreMessage} {buf : Bytes} (response : StoreMessage)
    (hmessages : messages = done ++ (skipped ++ reply :: rest))
    (hskipped : ∀ message ∈ skipped, message.mt ≠ mt)
    (hbuf : Incomplete pack buf (skipped ++ reply :: rest))
    (hstream : buf ++ chunks.flatten = (skipped ++ reply :: rest).flatMap pack) :
    ∃ t, Reaches
        { mt, response, responseBuf := buf, unread := chunks.map .data,
          consumed := (done.flatMap pack).length + buf.length } t ∧
      ((t.phase = .returned (-1) ∧
          ¬ WholeReads messages ((done ++ (skipped ++ [reply])).flatMap pack).length
            ((done.flatMap pack).length + buf.length) chunks) ∨
        (t.phase = .returned 0 ∧ t.response = accumulate (skipped.foldl accumulate response) reply ∧
          (leftover pack messages t.consumed = 0 ↔
            WholeReads messages ((done ++ (skipped ++ [reply])).flatMap pack).length
              ((done.flatMap pack).length + buf.length) chunks))) := by
  induction chunks generalizing done skipped buf response with
  | nil =>
    -- All messages have been read, and the next one is not complete.
    rw [List.flatten_nil, List.append_nil] at hstream
    exfalso
    cases skipped with
    | nil =>
      have hlt := hbuf.2
      rw [hstream, List.nil_append, List.flatMap_cons, List.length_append] at hlt
      omega
    | cons message skipped =>
      have hlt := hbuf.2
      rw [hstream, List.cons_append, List.flatMap_cons, List.length_append] at hlt
      omega
  | cons chunk chunks ih =>
    rw [List.flatten_cons, ← List.append_assoc] at hstream
    have hlast : (done.flatMap pack).length + buf.length < ((done ++ (skipped ++ [reply])).flatMap pack).length := by
      rw [List.flatMap_append, List.length_append]
      cases skipped with
      | nil =>
        have hlt := hbuf.2
        rw [List.nil_append, List.flatMap_singleton]
        omega
      | cons message skipped =>
        have hlt := hbuf.2
        rw [List.cons_append, List.flatMap_cons, List.length_append]
        omega
    have hbefore := leftover_of_incomplete hmessages hbuf
    have hsent : ∀ message ∈ skipped ++ reply :: rest, (pack message).length < 2 ^ 63 := fun message hmem =>
      hlength message (hmessages ▸ List.mem_append_right _ hmem)
    obtain ⟨whole, later, tail, hsplit, hseen, htail⟩ :=
      exists_frames_of_seen pack (hstream ▸ List.prefix_append (buf ++ chunk) chunks.flatten)
    have hposition : (done.flatMap pack).length + buf.length + chunk.length =
        (done.flatMap pack).length + (buf ++ chunk).length := by
      rw [List.length_append, Nat.add_assoc]
    rw [hsplit] at hsent
    cases whole with
    | nil =>
      -- Still no message is complete.
      rw [List.flatMap_nil, List.nil_append] at hseen
      rw [List.nil_append] at hsplit
      subst hseen
      rw [← hsplit] at htail hsent
      have hafter := leftover_of_incomplete hmessages htail
      obtain ⟨t, hreach, hend⟩ := ih response hmessages hskipped htail hstream
      refine ⟨t, Reaches.head ?_, ?_⟩
      · rw [List.map_cons, step_read, full_of_incomplete hsent htail, hposition]
        exact hreach
      · have hiff : WholeReads messages ((done ++ (skipped ++ [reply])).flatMap pack).length
              ((done.flatMap pack).length + buf.length) (chunk :: chunks) ↔
            WholeReads messages ((done ++ (skipped ++ [reply])).flatMap pack).length
              ((done.flatMap pack).length + (buf ++ chunk).length) chunks := by
          rw [WholeReads, hposition, hbefore, hafter, List.length_append]
          exact and_iff_right fun _ => Or.inl rfl
        rw [hiff]
        exact hend
    | cons first whole =>
      have hfull : full (buf ++ chunk) = true := by
        have hfirst := hsent first List.mem_cons_self
        rw [hseen, List.flatMap_cons, List.append_assoc]
        exact full_pack_append (by omega) _
      have hafter : leftover pack messages ((done.flatMap pack).length + buf.length + chunk.length) = tail.length := by
        have hmore := leftover_of_incomplete (by rw [hmessages, hsplit, List.append_assoc] :
          messages = (done ++ (first :: whole)) ++ later) htail
        rw [hposition, hseen, ← hmore, List.flatMap_append, List.length_append, List.length_append, Nat.add_assoc]
      have hiff : WholeReads messages ((done ++ (skipped ++ [reply])).flatMap pack).length
            ((done.flatMap pack).length + buf.length) (chunk :: chunks) ↔
          tail = [] ∧ WholeReads messages ((done ++ (skipped ++ [reply])).flatMap pack).length
            ((done.flatMap pack).length + buf.length + chunk.length) chunks := by
        rw [WholeReads, hbefore, hafter]
        apply and_congr_left'
        have hlen := congrArg List.length hseen
        have hpos := length_pack_pos first
        rw [List.length_append, List.length_append, List.flatMap_cons, List.length_append] at hlen
        rw [← List.length_eq_zero_iff]
        constructor
        · intro h
          exact (h hlast).resolve_left (by omega)
        · exact fun h _ => Or.inr h
      have hread : step
            { mt, response, responseBuf := buf, unread := (chunk :: chunks).map .data,
              consumed := (done.flatMap pack).length + buf.length } =
          { mt, response, responseBuf := (first :: whole).flatMap pack ++ tail, unread := chunks.map .data,
            consumed := (done.flatMap pack).length + buf.length + chunk.length, phase := .unpack } := by
        rw [List.map_cons, step_read, hfull, if_pos rfl, hseen]
      rcases append_cons_cases hsplit with ⟨skipped', rfl, hlater⟩ | ⟨rest', hwhole, hrest⟩
      · -- The reply is still to come.
        have hskip := reaches_skip mt tail (chunks.map .data)
          ((done.flatMap pack).length + buf.length + chunk.length) response
          (fun message hmem => hskipped message (List.mem_append_left _ hmem))
          (fun message hmem => hsent message (List.mem_append_left _ hmem))
        cases tail with
        | nil =>
          have hdone : messages = (done ++ (first :: whole)) ++ (skipped' ++ reply :: rest) := by
            rw [hmessages, List.append_assoc, List.append_assoc]
          have hnext : Incomplete pack [] (skipped' ++ reply :: rest) := hlater ▸ htail
          have hrest : [] ++ chunks.flatten = (skipped' ++ reply :: rest).flatMap pack := by
            rw [hseen, List.append_nil, hsplit, List.flatMap_append, hlater] at hstream
            exact List.append_cancel_left hstream
          have hconsumed : (done.flatMap pack).length + buf.length + chunk.length =
              ((done ++ (first :: whole)).flatMap pack).length + ([] : Bytes).length := by
            rw [hposition, hseen, List.flatMap_append, List.length_append, List.length_append, Nat.add_assoc]
          have hends : done ++ ((first :: whole) ++ skipped' ++ [reply]) =
              (done ++ (first :: whole)) ++ (skipped' ++ [reply]) := by
            rw [List.append_assoc, List.append_assoc]
          obtain ⟨t, hreach, hend⟩ := ih ((first :: whole).foldl accumulate response) hdone
            (fun message hmem => hskipped message (List.mem_append_right _ hmem)) hnext hrest
          refine ⟨t, Reaches.head (hread ▸ hskip.trans (Reaches.head ?_)), ?_⟩
          · rw [hconsumed]
            exact hreach
          · rw [hiff, hends, hconsumed, List.foldl_append]
            simpa only [true_and] using hend
        | cons byte tail =>
          have hstuck : full (byte :: tail) = false :=
            full_of_incomplete (fun message hmem => hsent message (List.mem_append_right _ hmem)) htail
          refine ⟨_, Reaches.head (hread ▸ hskip.trans (Reaches.head (Reaches.refl _))), Or.inl ⟨?_, ?_⟩⟩
          · simp only [step, List.isEmpty_cons, Bool.false_eq_true, if_false]
            rw [value_unpack_of_not_full hstuck]
            rfl
          · rw [hiff]
            exact fun h => List.cons_ne_nil byte tail h.1
      · rw [hwhole] at hread hsent
        have hskip := reaches_skip mt (pack reply ++ (rest'.flatMap pack ++ tail)) (chunks.map .data)
          ((done.flatMap pack).length + buf.length + chunk.length) response hskipped
          (fun message hmem => hsent message (List.mem_append_left _ (List.mem_append_left _ hmem)))
        have hlength' : (pack reply).length < 2 ^ 63 :=
          hsent reply (List.mem_append_left _ (List.mem_append_right _ List.mem_cons_self))
        have hflat : (skipped ++ reply :: rest').flatMap pack ++ tail =
            skipped.flatMap pack ++ (pack reply ++ (rest'.flatMap pack ++ tail)) := by
          rw [List.flatMap_append, List.flatMap_cons, List.append_assoc, List.append_assoc]
        rw [hflat] at hread
        refine ⟨{ mt, unread := chunks.map .data, consumed := (done.flatMap pack).length + buf.length + chunk.length,
                  responseBuf := rest'.flatMap pack ++ tail, phase := .returned 0,
                  response := accumulate (skipped.foldl accumulate response) reply }, ?_, Or.inr ⟨rfl, rfl, ?_⟩⟩
        · apply Reaches.head
          rw [hread]
          apply hskip.trans
          apply Reaches.head
          rw [step_unpack _ _ _ _ _ hlength', if_pos hreply]
          exact Reaches.refl _
        rw [hiff]
        rw [hafter, List.length_eq_zero_iff]
        apply (and_iff_left (wholeReads_of_le _)).symm
        rw [hposition, hseen, hwhole, hflat, List.flatMap_append, List.length_append, List.flatMap_append,
          List.flatMap_singleton, List.length_append, List.length_append, List.length_append]
        omega

/-- The call returns the message, which is the reply it asks for, and has taken whole messages from the socket. -/
def AnswersWith (s : SyncCall) (messages : List StoreMessage) (reply : StoreMessage) : Prop :=
  ∃ t, s.Reaches t ∧ t.phase = .returned 0 ∧ t.response = reply ∧ leftover pack messages t.consumed = 0

theorem accumulate_eq_iff {skipped : List StoreMessage} {reply : StoreMessage} :
    accumulate (skipped.foldl accumulate {}) reply = reply ↔
      ∀ message ∈ skipped, message.keys = [] ∧ message.values = [] := by
  have hkeys : (accumulate (skipped.foldl accumulate {}) reply).keys =
      skipped.flatMap StoreMessage.keys ++ reply.keys := by
    rw [accumulate, keys_foldl_accumulate, List.nil_append]
  have hvalues : (accumulate (skipped.foldl accumulate {}) reply).values =
      skipped.flatMap StoreMessage.values ++ reply.values := by
    rw [accumulate, values_foldl_accumulate, List.nil_append]
  constructor
  · intro h message hmem
    rw [h] at hkeys hvalues
    exact ⟨List.flatMap_eq_nil_iff.mp (List.self_eq_append_left.mp hkeys) message hmem,
      List.flatMap_eq_nil_iff.mp (List.self_eq_append_left.mp hvalues) message hmem⟩
  · intro h
    rw [List.flatMap_eq_nil_iff.mpr fun message hmem => (h message hmem).1, List.nil_append] at hkeys
    rw [List.flatMap_eq_nil_iff.mpr fun message hmem => (h message hmem).2, List.nil_append] at hvalues
    rw [StoreMessage.mk.injEq]
    exact ⟨rfl, rfl, hkeys, hvalues⟩

/-- A call gets its reply if what it skips has no keys and no values, and no read completes a message and takes in
a part of the next one. -/
theorem answersWith_iff (mt : MessageType) {skipped rest : List StoreMessage} {reply : StoreMessage}
    {chunks : List Bytes} (hskipped : ∀ message ∈ skipped, message.mt ≠ mt) (hreply : reply.mt = mt)
    (hlength : ∀ message ∈ skipped ++ reply :: rest, (pack message).length < 2 ^ 63)
    (hchunks : chunks.flatten = (skipped ++ reply :: rest).flatMap pack) :
    AnswersWith { mt, unread := chunks.map .data } (skipped ++ reply :: rest) reply ↔
      (∀ message ∈ skipped, message.keys = [] ∧ message.values = []) ∧
        WholeReads (skipped ++ reply :: rest) ((skipped ++ [reply]).flatMap pack).length 0 chunks := by
  have hempty : Incomplete pack [] (skipped ++ reply :: rest) := by
    cases skipped with
    | nil => exact ⟨List.nil_prefix, length_pack_pos _⟩
    | cons message skipped => exact ⟨List.nil_prefix, length_pack_pos _⟩
  obtain ⟨t, hreach, hend⟩ := @exists_return mt (skipped ++ reply :: rest) reply rest hreply hlength chunks [] skipped [] {} rfl hskipped hempty
    hchunks
  rw [← accumulate_eq_iff]
  rcases hend with ⟨hphase, hnot⟩ | ⟨hphase, hresponse, hiff⟩
  · constructor
    · rintro ⟨t', hreach', hphase', -⟩
      rw [hreach.eq hreach' hphase hphase', hphase'] at hphase
      cases hphase
    · exact fun h => absurd h.2 hnot
  · constructor
    · rintro ⟨t', hreach', hphase', hresponse', hwhole⟩
      obtain rfl := hreach.eq hreach' hphase hphase'
      exact ⟨hresponse.symm.trans hresponse', hiff.mp hwhole⟩
    · exact fun h => ⟨t, hreach, hphase, hresponse.trans h.1, hiff.mpr h.2⟩

/-- The first answer to a client that has to wait. -/
def invalid : StoreMessage :=
  { mt := .invalidMsg }

/-- The last message to a client that waits. -/
def stopWaiting : StoreMessage :=
  { mt := .wait, values := [[keysStopWaiting]] }

theorem answersWith_stopWaiting :
    AnswersWith
      { mt := .wait, unread := [pack invalid, (pack stopWaiting).take 20, (pack stopWaiting).drop 20].map .data }
      ([invalid] ++ stopWaiting :: []) stopWaiting :=
  (answersWith_iff .wait (by decide) rfl (by decide +kernel) (by decide +kernel)).mpr
    ⟨by decide, by decide +kernel⟩

/-- The reply to a `GET` with the one byte 7. -/
def seven : StoreMessage :=
  { mt := .get, values := [[7]] }

/-- The reply to a `GET` behind a late `KEYS_STOP_WAITING` has the values of both. -/
theorem not_answersWith_late :
    ¬ ∀ (mt : MessageType) (skipped rest : List StoreMessage) (reply : StoreMessage) (chunks : List Bytes),
      (∀ message ∈ skipped, message.mt ≠ mt) → reply.mt = mt →
      (∀ message ∈ skipped ++ reply :: rest, (pack message).length < 2 ^ 63) → (∀ chunk ∈ chunks, chunk ≠ []) →
      chunks.flatten = (skipped ++ reply :: rest).flatMap pack →
      AnswersWith { mt, unread := chunks.map .data } (skipped ++ reply :: rest) reply := by
  intro h
  obtain ⟨t, hreach, hphase, hresponse, -⟩ := h .get [stopWaiting] [] seven [pack stopWaiting ++ pack seven]
    (by decide) rfl (by decide +kernel) (by decide +kernel) (by decide +kernel)
  have hrun : Reaches { mt := .get, unread := [pack stopWaiting ++ pack seven].map .data }
      { mt := .get, unread := [], consumed := 76, responseBuf := [], phase := .returned 0,
        response := { mt := .get, values := [[keysStopWaiting], [7]] } } :=
    ⟨3, by decide +kernel⟩
  rw [hreach.eq hrun hphase rfl] at hresponse
  revert hresponse
  decide

end SyncCall

end TorchNpu.Store

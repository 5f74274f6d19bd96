/-
  Whether the three modes give the manager the same result.

  The way the bytes of a pipe are cut into reads does not matter (`onReads_eq`).  What a sub-process sends is
  the result of the task only if the output is true as a Python value or `None`, and the numbers fit in four
  bytes.
-/
import TorchNpu.Profiler.TaskManager

namespace TorchNpu.Profiler

variable {α V : Type*} {p : Pickle V} {r r' : Received α V}

/-! ### Numbers -/

theorem toBytes_isSome {v : ℤ} : (toBytes v).isSome ↔ 0 ≤ v ∧ v < 0x100000000 := by
  rw [toBytes]
  split_ifs with h
  · exact iff_of_true rfl h
  · exact iff_of_false Bool.false_ne_true h

theorem length_of_toBytes {v : ℤ} {bs : Bytes} (h : toBytes v = some bs) : bs.length = 4 := by
  rw [toBytes] at h
  split_ifs at h
  cases h
  rw [List.length_reverse, length_leEncode]

theorem fromBytes_of_toBytes {v : ℤ} {bs : Bytes} (h : toBytes v = some bs) : (fromBytes bs : ℤ) = v := by
  rw [toBytes] at h
  split_ifs at h with hv
  cases h
  have hlt : v.toNat < 256 ^ 4 := by omega
  rw [fromBytes, List.reverse_reverse, leDecode_leEncode_of_lt hlt]
  omega

theorem message_eq_some {type : TaskMsgType} {value bs : Bytes} (h : message type value = some bs) :
    ∃ t l, toBytes type.value = some t ∧ toBytes value.length = some l ∧ bs = t ++ l ++ value := by
  obtain ⟨t, ht, h⟩ := Option.bind_eq_some_iff.mp h
  obtain ⟨l, hl, h⟩ := Option.bind_eq_some_iff.mp h
  exact ⟨t, l, ht, hl, (Option.some_inj.mp h).symm⟩

theorem message_isSome {type : TaskMsgType} {value : Bytes} :
    (message type value).isSome ↔ value.length < 0x100000000 := by
  have htype : (toBytes type.value).isSome := by
    cases type <;> decide
  obtain ⟨t, ht⟩ := Option.isSome_iff_exists.mp htype
  have hlength : (toBytes value.length).isSome ↔ value.length < 0x100000000 := by
    rw [toBytes_isSome]
    omega
  rw [← hlength, message, ht]
  cases toBytes value.length <;> simp

/-! ### Cutting into reads -/

theorem recvBuffer_onMessage {valueType : ℕ} {value : Bytes}
    (h : r.onMessage p valueType value = some r') : r'.recvBuffer = r.recvBuffer := by
  rw [Received.onMessage] at h
  split_ifs at h with hret hout
  · cases h
    rfl
  · obtain ⟨output, -, rfl⟩ := Option.map_eq_some_iff.mp h
    rfl
  · cases h
    rfl

theorem onRecvMsg_of_buffer {x y : Bytes} (hr : r.recvBuffer = []) :
    Received.onRecvMsg p { r with recvBuffer := x } y = r.consume p (x ++ y) := by
  obtain ⟨info, buffer, retCode⟩ := r
  obtain rfl : buffer = [] := hr
  rfl

theorem consume_nil (hr : r.recvBuffer = []) : r.consume p [] = some r := by
  rw [Received.consume, if_pos (by decide)]
  obtain ⟨info, buffer, retCode⟩ := r
  obtain rfl : buffer = [] := hr
  rfl

/-- The first message is complete. -/
theorem consume_eq_bind {x : Bytes} (hshort : ¬x.length < 8)
    (hpart : ¬x.length < 8 + fromBytes ((x.take 8).drop 4)) :
    r.consume p x = (r.onMessage p (fromBytes (x.take 4))
      ((x.drop 8).take (fromBytes ((x.take 8).drop 4)))).bind fun r =>
        r.consume p (x.drop (8 + fromBytes ((x.take 8).drop 4))) := by
  rw [Received.consume, if_neg hshort, if_neg hpart]

/-- What is read later does not matter to the messages that are complete. -/
theorem consume_append (r : Received α V) (hr : r.recvBuffer = []) (x y : Bytes) :
    r.consume p (x ++ y) = (r.consume p x).bind fun r => r.onRecvMsg p y := by
  induction hn : x.length using Nat.strong_induction_on generalizing r x with
  | _ n ih =>
    by_cases hshort : x.length < 8
    · have hx : r.consume p x = some { r with recvBuffer := x } := by
        rw [Received.consume, if_pos hshort]
      rw [hx, Option.bind_some, onRecvMsg_of_buffer hr]
    · have htake : (x ++ y).take 8 = x.take 8 := List.take_append_of_le_length (by omega)
      by_cases hpart : x.length < 8 + fromBytes ((x.take 8).drop 4)
      · have hx : r.consume p x = some { r with recvBuffer := x } := by
          rw [Received.consume, if_neg hshort, if_pos hpart]
        rw [hx, Option.bind_some, onRecvMsg_of_buffer hr]
      · -- The first message is complete, and the same with what comes later.
        have hshort' : ¬(x ++ y).length < 8 := by
          rw [List.length_append]
          omega
        have hpart' : ¬(x ++ y).length < 8 + fromBytes ((x.take 8).drop 4) := by
          rw [List.length_append]
          omega
        have htake4 : (x ++ y).take 4 = x.take 4 := List.take_append_of_le_length (by omega)
        have hvalue : ((x ++ y).drop 8).take (fromBytes ((x.take 8).drop 4)) =
            (x.drop 8).take (fromBytes ((x.take 8).drop 4)) := by
          rw [List.drop_append_of_le_length (by omega), List.take_append_of_le_length]
          rw [List.length_drop]
          omega
        have hrest : (x ++ y).drop (8 + fromBytes ((x.take 8).drop 4)) =
            x.drop (8 + fromBytes ((x.take 8).drop 4)) ++ y :=
          List.drop_append_of_le_length (by omega)
        rw [consume_eq_bind hshort' (by rwa [htake]), htake, htake4, hvalue, hrest,
          consume_eq_bind hshort hpart, Option.bind_assoc]
        refine Option.bind_congr fun r' hr' => ?_
        refine ih _ ?_ r' ((recvBuffer_onMessage hr').trans hr) _ rfl
        rw [List.length_drop]
        omega

/-- The reads of a stream have the effect of one read of all of it. -/
theorem onReads_eq (reads : List Bytes) (x : Bytes) (r : Received α V) (hr : r.recvBuffer = []) :
    ((r.consume p x).bind fun r => r.onReads p reads) = r.consume p (x ++ reads.flatten) := by
  induction reads generalizing x with
  | nil =>
    rw [List.flatten_nil, List.append_nil]
    exact Option.bind_fun_some _
  | cons msg reads ih =>
    rw [List.flatten_cons, ← List.append_assoc, ← ih (x ++ msg), consume_append r hr x msg,
      Option.bind_assoc]
    rfl

theorem onReads_eq_consume {reads : List Bytes} (hr : r.recvBuffer = []) :
    r.onReads p reads = r.consume p reads.flatten := by
  have hnil : r.consume p [] = some r := consume_nil hr
  have h := onReads_eq reads [] r hr (p := p)
  rwa [hnil, Option.bind_some, List.nil_append] at h

/-! ### What is received -/

/-- A message that is there as a whole. -/
theorem consume_message {type : TaskMsgType} {value bs : Bytes} (h : message type value = some bs)
    (rest : Bytes) : r.consume p (bs ++ rest) =
      (r.onMessage p type.value.toNat value).bind fun r => r.consume p rest := by
  obtain ⟨t, l, ht, hl, rfl⟩ := message_eq_some h
  have htlen := length_of_toBytes ht
  have hllen := length_of_toBytes hl
  have hlength : fromBytes l = value.length := by
    have := fromBytes_of_toBytes hl
    omega
  have htype : fromBytes t = type.value.toNat := by
    have := fromBytes_of_toBytes ht
    omega
  have htake : (t ++ l ++ value ++ rest).take 8 = t ++ l := by
    rw [List.append_assoc (t ++ l)]
    exact List.take_left' (by rw [List.length_append]; omega)
  have hdrop : (t ++ l ++ value ++ rest).drop 8 = value ++ rest := by
    rw [List.append_assoc (t ++ l)]
    exact List.drop_left' (by rw [List.length_append]; omega)
  have htake4 : (t ++ l ++ value ++ rest).take 4 = t := by
    rw [List.append_assoc, List.append_assoc]
    exact List.take_left' htlen
  have hfield : ((t ++ l ++ value ++ rest).take 8).drop 4 = l := by
    rw [htake]
    exact List.drop_left' htlen
  have hwhole : (t ++ l ++ value ++ rest).drop (8 + value.length) = rest := by
    rw [← List.drop_drop, hdrop, List.drop_left]
  have htotal : (t ++ l ++ value ++ rest).length = 8 + value.length + rest.length := by
    simp only [List.length_append]
    omega
  rw [consume_eq_bind (by omega) (by rw [hfield, hlength]; omega), hfield, htake4, hdrop, hlength, htype,
    List.take_left, hwhole]

/-- Prints change nothing. -/
theorem consume_prints (prints : List Printed) (rest : Bytes) :
    r.consume p ((prints.flatMap fun text => (sendPrintReqToManager text).getD []) ++ rest) =
      r.consume p rest := by
  induction prints with
  | nil => rfl
  | cons text prints ih =>
    obtain ⟨bs, hbs⟩ := Option.isSome_iff_exists.mp
      ((@message_isSome .print text.val).mpr text.property)
    have hprint : r.onMessage p TaskMsgType.print.value.toNat text.val = some r := rfl
    rw [List.flatMap_cons, List.append_assoc, sendPrintReqToManager, hbs, Option.getD_some,
      consume_message hbs, hprint, Option.bind_some, ih]

theorem consume_retCode {retCode : ℤ} {code bs : Bytes} (hcode : toBytes retCode = some code)
    (hbs : message .retCode code = some bs) (hr : r.recvBuffer = []) :
    r.consume p bs = some (r.onTaskDone retCode none) := by
  have hret : r.onMessage p TaskMsgType.retCode.value.toNat code =
      some (r.onTaskDone (fromBytes code) none) := rfl
  have h := consume_message hbs [] (p := p) (r := r)
  rw [List.append_nil, hret, Option.bind_some, fromBytes_of_toBytes hcode] at h
  rw [h]
  exact consume_nil hr

/-! ### The modes -/

/-- A task that `__run_one_task` has begun. -/
def Received.begun (task : ConcurrentTask α) (postTasks : Finset α) : Received α V :=
  { info := { task, preTasks := ∅, postTasks, status := .running } }

/-- Whatever the reads of the pipe, a sub-process and a thread leave the manager with what it has of a task
of the main process. -/
def SameInEveryMode (p : Pickle V) (r : Received α V) (prints : List Printed) (retCode : ℤ)
    (output : Option V) : Prop :=
  (∀ reads : List Bytes, reads.flatten = subprocessBytes p prints retCode output →
    r.runInSubprocess p reads = some (r.runInMainprocess retCode output)) ∧
  ∀ reads : List Bytes, reads.flatten = (sendResultToManager p retCode none).getD [] →
    r.runInPthread p retCode output reads = some (r.runInMainprocess retCode output)

/-- The return code fits in four bytes, and the output of a task that succeeds is `None`, or true as a
Python value and small enough. -/
def Transportable (p : Pickle V) (retCode : ℤ) (output : Option V) : Prop :=
  (0 ≤ retCode ∧ retCode < 0x100000000) ∧
    (retCode = 0 → ∀ v, output = some v → p.truth v = some true ∧ (p.dumps v).length < 0x100000000)

theorem sendResult_eq {retCode : ℤ} {output : Option V} {bs : Bytes}
    (h : sendResultToManager p retCode output = some bs) :
    ∃ out code ret, outputMessage p output = some out ∧ toBytes retCode = some code ∧
      message .retCode code = some ret ∧ bs = out ++ ret := by
  obtain ⟨out, hout, h⟩ := Option.bind_eq_some_iff.mp h
  obtain ⟨code, hcode, h⟩ := Option.bind_eq_some_iff.mp h
  obtain ⟨ret, hret, h⟩ := Option.bind_eq_some_iff.mp h
  exact ⟨out, code, ret, hout, hcode, hret, (Option.some_inj.mp h).symm⟩

/-- `send_result_to_manager` does not raise. -/
theorem sendResult_isSome {retCode : ℤ} {output : Option V} :
    (sendResultToManager p retCode output).isSome ↔
      (outputMessage p output).isSome ∧ 0 ≤ retCode ∧ retCode < 0x100000000 := by
  rw [← toBytes_isSome]
  constructor
  · intro h
    obtain ⟨bs, hbs⟩ := Option.isSome_iff_exists.mp h
    obtain ⟨out, code, ret, hout, hcode, -⟩ := sendResult_eq hbs
    exact ⟨Option.isSome_of_eq_some hout, Option.isSome_of_eq_some hcode⟩
  · rintro ⟨hout, hcode⟩
    obtain ⟨out, hout⟩ := Option.isSome_iff_exists.mp hout
    obtain ⟨code, hcode⟩ := Option.isSome_iff_exists.mp hcode
    have hlength : code.length < 0x100000000 := by
      have := length_of_toBytes hcode
      omega
    obtain ⟨ret, hret⟩ := Option.isSome_iff_exists.mp ((@message_isSome .retCode code).mpr hlength)
    rw [sendResultToManager, hout, hcode, Option.bind_eq_bind, Option.bind_some,
      Option.bind_some, hret]
    exact Option.isSome_some

/-- The output that a sub-process gets across. -/
def delivered (p : Pickle V) (output : Option V) : Option V :=
  output.filter fun v => p.truth v = some true

theorem consume_outputMessage (hloads : ∀ v, p.loads (p.dumps v) = some v) {output : Option V}
    {out : Bytes} (hout : outputMessage p output = some out) (hnone : r.info.output = none) (rest : Bytes) :
    r.consume p (out ++ rest) = (r.setOutput (delivered p output)).consume p rest := by
  have hkeep : r.setOutput none = r := by
    obtain ⟨⟨task, pre, post, status, output⟩, buffer, retCode⟩ := r
    obtain rfl : output = none := hnone
    rfl
  cases output with
  | none =>
    cases hout
    rw [List.nil_append, delivered, Option.filter_none, hkeep]
  | some v =>
    rw [outputMessage] at hout
    obtain ⟨truth, htruth, hout⟩ := Option.bind_eq_some_iff.mp hout
    cases truth with
    | true =>
      have hmessage : r.onMessage p TaskMsgType.output.value.toNat (p.dumps v) =
          some (r.setOutput (some v)) := by
        have hbranch : r.onMessage p TaskMsgType.output.value.toNat (p.dumps v) =
          (p.loads (p.dumps v)).map fun output => r.setOutput (some output) := rfl
        rw [hbranch, hloads, Option.map_some]
      rw [consume_message hout, hmessage, Option.bind_some, delivered, Option.filter_some, htruth,
        if_pos (by decide)]
    | false =>
      cases hout
      rw [List.nil_append, delivered, Option.filter_some, htruth, if_neg (by decide), hkeep]

/-- What the manager has in the end of a task whose result was sent. -/
theorem consume_result (hloads : ∀ v, p.loads (p.dumps v) = some v) {retCode : ℤ} {output : Option V}
    {bs : Bytes} (h : sendResultToManager p retCode output = some bs) (hr : r.recvBuffer = [])
    (hnone : r.info.output = none) :
    r.consume p bs = some ((r.setOutput (delivered p output)).onTaskDone retCode none) := by
  obtain ⟨out, code, ret, hout, hcode, hret, rfl⟩ := sendResult_eq h
  rw [consume_outputMessage hloads hout hnone]
  exact consume_retCode hcode hret hr

/-- What the manager has of a sub-process, by whether its result was sent. -/
theorem runInSubprocess_eq (hloads : ∀ v, p.loads (p.dumps v) = some v) {prints : List Printed}
    {retCode : ℤ} {output : Option V} {reads : List Bytes} (hr : r.recvBuffer = [])
    (hnone : r.info.output = none) (hreads : reads.flatten = subprocessBytes p prints retCode output) :
    r.runInSubprocess p reads = some
      (if (sendResultToManager p retCode (if retCode = 0 then output else none)).isSome then
        ((r.setOutput (delivered p (if retCode = 0 then output else none))).onTaskDone retCode none).onTaskExit
      else r.onTaskExit) := by
  rw [Received.runInSubprocess, onReads_eq_consume hr, hreads, subprocessBytes, consume_prints]
  cases hsent : sendResultToManager p retCode (if retCode = 0 then output else none) with
  | none =>
    rw [Option.getD_none, consume_nil hr, Option.map_some, if_neg (by decide)]
  | some bs =>
    rw [Option.getD_some, consume_result hloads hsent hr hnone, Option.map_some, if_pos Option.isSome_some]

/-- A task that is done has left nothing for its exit to change. -/
theorem onTaskExit_onTaskDone (r : Received α V) (retCode : ℤ) (output : Option V) :
    (r.onTaskDone retCode output).onTaskExit = r.onTaskDone retCode output := by
  rw [Received.onTaskExit, Received.onTaskDone, TaskInfo.leave, TaskInfo.finish]
  split_ifs with h h' <;> simp_all

/-- The output may be assigned ahead or handed over. -/
theorem onTaskDone_setOutput {retCode : ℤ} {output : Option V} (hnone : r.info.output = none) :
    (r.setOutput (if retCode = 0 then output else none)).onTaskDone retCode none =
      r.onTaskDone retCode output := by
  rw [Received.onTaskDone, Received.onTaskDone, Received.setOutput, TaskInfo.finish, TaskInfo.finish]
  obtain ⟨⟨task, pre, post, status, own⟩, buffer, code⟩ := r
  obtain rfl : own = none := hnone
  split_ifs with h
  · simp
  · rfl

theorem outputMessage_isSome {output : Option V} (h : ∀ v, output = some v →
    p.truth v = some true ∧ (p.dumps v).length < 0x100000000) :
    (outputMessage p output).isSome ∧ delivered p output = output := by
  cases output with
  | none => exact ⟨rfl, rfl⟩
  | some v =>
    obtain ⟨htruth, hlength⟩ := h v rfl
    have hmessage : outputMessage p (some v) = message .output (p.dumps v) := by
      rw [outputMessage, htruth, Option.bind_eq_bind, Option.bind_some, if_pos rfl]
    have hdelivered : delivered p (some v) = some v := by
      rw [delivered, Option.filter_some, htruth, if_pos (by decide)]
    rw [hmessage, hdelivered]
    exact ⟨message_isSome.mpr hlength, rfl⟩

/-- A sub-process that leaves the manager with the right result has sent it. -/
theorem transportable_of_same {prints : List Printed} {retCode : ℤ} {output : Option V}
    (hloads : ∀ v, p.loads (p.dumps v) = some v) (hr : r.recvBuffer = []) (hcode : r.retCode = none)
    (hnone : r.info.output = none)
    (h : r.runInSubprocess p [subprocessBytes p prints retCode output] =
      some (r.runInMainprocess retCode output)) : Transportable p retCode output := by
  rw [runInSubprocess_eq hloads hr hnone (List.append_nil _), Option.some_inj] at h
  by_cases hsent : (sendResultToManager p retCode (if retCode = 0 then output else none)).isSome
  · rw [if_pos hsent, onTaskExit_onTaskDone] at h
    obtain ⟨hmessage, hfits⟩ := sendResult_isSome.mp hsent
    refine ⟨hfits, fun hzero v hv => ?_⟩
    subst hzero hv
    rw [if_pos rfl] at h hmessage
    -- The output that arrived is the one the task returned.
    have hdelivered : delivered p (some v) = some v := by
      have hout := congrArg (fun r : Received α V => r.info.output) h
      simpa [Received.runInMainprocess, Received.onTaskDone, Received.setOutput, TaskInfo.finish] using hout
    have htruth : p.truth v = some true := by
      by_contra hfalse
      rw [delivered, Option.filter_some, if_neg (by simpa using hfalse)] at hdelivered
      exact Option.some_ne_none v hdelivered.symm
    have hout : outputMessage p (some v) = message .output (p.dumps v) := by
      rw [outputMessage, htruth, Option.bind_eq_bind, Option.bind_some, if_pos rfl]
    rw [hout] at hmessage
    exact ⟨htruth, message_isSome.mp hmessage⟩
  · rw [if_neg hsent] at h
    -- Nothing was sent, so `__on_task_done` was not called.
    have hret : r.retCode = some retCode := congrArg Received.retCode h
    exact absurd (hcode.symm.trans hret) nofun

/-- A thread hands over everything but a return code that is too large. -/
theorem runInPthread_eq {retCode : ℤ} {output : Option V} {reads : List Bytes} (hr : r.recvBuffer = [])
    (hnone : r.info.output = none)
    (hcode : 0 ≤ retCode ∧ retCode < 0x100000000)
    (hreads : reads.flatten = (sendResultToManager p retCode none).getD []) :
    r.runInPthread p retCode output reads = some (r.runInMainprocess retCode output) := by
  have hsent : (sendResultToManager p retCode none).isSome := sendResult_isSome.mpr ⟨rfl, hcode⟩
  obtain ⟨bs, hbs⟩ := Option.isSome_iff_exists.mp hsent
  obtain ⟨out, code, ret, hout, hcode', hret, rfl⟩ := sendResult_eq hbs
  cases hout
  have hassign : (if retCode = 0 then r.setOutput output else r) =
      r.setOutput (if retCode = 0 then output else none) := by
    split_ifs
    · rfl
    · obtain ⟨⟨task, pre, post, status, own⟩, buffer, code⟩ := r
      obtain rfl : own = none := hnone
      rfl
  have hbuffer : (r.setOutput (if retCode = 0 then output else none)).recvBuffer = [] := hr
  rw [Received.runInPthread, if_pos hsent, hassign, onReads_eq_consume hbuffer, hreads, hbs, Option.getD_some, List.nil_append,
    consume_retCode hcode' hret hbuffer, Option.map_some, onTaskExit_onTaskDone,
    onTaskDone_setOutput hnone]
  rfl

/-- The three modes give the manager the same result exactly when it can be transported. -/
theorem sameInEveryMode_iff (hloads : ∀ v, p.loads (p.dumps v) = some v) (task : ConcurrentTask α)
    (postTasks : Finset α) (prints : List Printed) (retCode : ℤ) (output : Option V) :
    SameInEveryMode p (Received.begun task postTasks) prints retCode output ↔
      Transportable p retCode output := by
  have hr : (Received.begun task postTasks : Received α V).recvBuffer = [] := rfl
  have hnone : (Received.begun task postTasks : Received α V).info.output = none := rfl
  constructor
  · rintro ⟨hsub, -⟩
    exact transportable_of_same hloads hr rfl hnone (hsub _ (List.append_nil _))
  · rintro ⟨hcode, hout⟩
    have hsent : ∀ v, (if retCode = 0 then output else none) = some v →
        p.truth v = some true ∧ (p.dumps v).length < 0x100000000 := by
      intro v hv
      split_ifs at hv with hzero
      exact hout hzero v hv
    obtain ⟨hmessage, hdelivered⟩ := outputMessage_isSome hsent
    constructor
    · intro reads hreads
      rw [runInSubprocess_eq hloads hr hnone hreads, if_pos (sendResult_isSome.mpr ⟨hmessage, hcode⟩),
        hdelivered, onTaskExit_onTaskDone, onTaskDone_setOutput hnone]
      rfl
    · intro reads hreads
      exact runInPthread_eq hr hnone hcode hreads

/-- Python integers below 256, pickled to their byte. -/
def bytePickle : Pickle UInt8 where
  truth v := some (v ≠ 0)
  dumps v := [v]
  loads bs := bs.head?

theorem sameInEveryMode_seven :
    SameInEveryMode bytePickle (Received.begun (⟨0, [], {}⟩ : ConcurrentTask ℕ) ∅) [] 0 (some 7) := by
  refine (sameInEveryMode_iff (fun v => rfl) _ _ _ _ _).mpr ⟨by decide, fun _ v hv => ?_⟩
  cases hv
  exact ⟨rfl, by decide⟩

/-- The output `0` of a sub-process does not arrive. -/
theorem not_sameInEveryMode_zero : ¬∀ (p : Pickle UInt8) (task : ConcurrentTask ℕ) (postTasks : Finset ℕ)
    (prints : List Printed) (retCode : ℤ) (output : Option UInt8), (∀ v, p.loads (p.dumps v) = some v) →
    SameInEveryMode p (Received.begun task postTasks) prints retCode output := by
  intro h
  have hsub := (h bytePickle ⟨0, [], {}⟩ ∅ [] 0 (some 0) (fun v => rfl)).1
    [subprocessBytes bytePickle [] 0 (some 0)] (List.append_nil _)
  have htransportable := transportable_of_same (fun v => rfl) rfl rfl rfl hsub
  exact absurd (htransportable.2 rfl 0 rfl).1 (by decide)

end TorchNpu.Profiler

/-
  Do the read loops of the clients end when the server has closed the connection?

  What `Unpack` returns depends on the message at the head of the buffer alone, so that a stream can
  be followed by the sizes its messages declare, whatever they hold.  `Answered` says where that
  leads a call to its end; `returns_iff` is proved in the one direction by induction on the steps and
  in the other by induction on `Answered`.
-/
import TorchNpu.Store.Spec.SyncCall

namespace TorchNpu.Store

/-! ### What `Unpack` depends on -/

theorem value_unpackItems_append (buffer : Bytes) (count ptr : ℕ) (items : List Bytes) :
    (unpackItems buffer count ptr items).value =
      (unpackItems buffer count ptr []).value.map fun result => (items ++ result.1, result.2) := by
  induction count generalizing ptr items with
  | zero => simp [unpackItems]
  | succ count ih =>
    rw [unpackItems, unpackItems, Traced.value_bind, Traced.value_bind, Option.map_bind]
    congr 1
    funext size
    simp only [Function.comp]
    rw [Traced.value_bind, Traced.value_bind, Option.map_bind]
    congr 1
    funext item
    simp only [Function.comp]
    split
    · simp
    · rw [ih, ih (ptr + 8 + size) ([] ++ [item]), Option.map_map]
      congr 1
      funext result
      simp

/-- The keys and values that are in `message` before come first after. -/
theorem value_unpack_accumulate {buffer : Bytes} (hfull : full buffer = true) (message : StoreMessage) :
    (unpack buffer message).value =
      (unpack buffer {}).value.map fun result => (result.1, accumulate message result.2) := by
  unfold unpack
  rw [Traced.value_bind_of_some (value_fullTraced buffer), Traced.value_bind_of_some (value_fullTraced buffer), hfull]
  simp only [Bool.not_true, Bool.false_eq_true, if_false]
  simp only [Traced.value_bind, Option.map_bind, Function.comp_def]
  congr 1
  funext totalSize
  congr 1
  funext mt
  congr 1
  funext fd
  congr 1
  funext keyCount
  rw [value_unpackItems_append _ _ _ message.keys]
  rw [Option.bind_map]
  congr 1
  funext keys
  simp only [Function.comp]
  congr 1
  funext valueCount
  rw [value_unpackItems_append _ _ _ message.values, Option.bind_map]
  congr 1

theorem used_of_value_unpack {buffer : Bytes} {message : StoreMessage} {used : ℤ} (hfull : full buffer = true)
    (h : (unpack buffer {}).value = some (used, message)) : used = toInt64 (declaredSize buffer) := by
  unfold unpack at h
  rw [Traced.value_bind_of_some (value_fullTraced buffer), hfull] at h
  simp only [Bool.not_true, Bool.false_eq_true, if_false] at h
  obtain ⟨totalSize, hsize, h⟩ := Traced.value_bind_eq_some.mp h
  obtain ⟨mt, -, h⟩ := Traced.value_bind_eq_some.mp h
  obtain ⟨fd, -, h⟩ := Traced.value_bind_eq_some.mp h
  obtain ⟨keyCount, -, h⟩ := Traced.value_bind_eq_some.mp h
  obtain ⟨keys, -, h⟩ := Traced.value_bind_eq_some.mp h
  obtain ⟨valueCount, -, h⟩ := Traced.value_bind_eq_some.mp h
  obtain ⟨values, -, h⟩ := Traced.value_bind_eq_some.mp h
  have hlength : 13 ≤ buffer.length := by
    rw [full, Bool.and_eq_true, decide_eq_true_eq] at hfull
    exact hfull.1
  rw [Traced.value_readNat_of_le (by omega), Option.some.injEq, List.drop_zero] at hsize
  rw [Traced.value_pure, Option.some.injEq, Prod.mk.injEq] at h
  rw [← h.1, ← hsize, declaredSize]

/-! ### Following a stream by the sizes its messages declare -/

/-- What so many reads have brought from a position on. -/
def available (chunks : List Bytes) (position reads : ℕ) : Bytes :=
  (chunks.take reads).flatten.drop position

/-- The message at a position is complete after so many reads, and not before. -/
def CompleteAfter (chunks : List Bytes) (position reads : ℕ) : Prop :=
  full (available chunks position reads) = true ∧ ∀ i < reads, full (available chunks position i) = false

/-- From a position on, the sizes that the messages declare lead to a complete message of a type, or to a message
of which a part comes with the end of the one before. -/
inductive Answered (mt : MessageType) (chunks : List Bytes) : ℕ → Prop
  | reply {position reads : ℕ} {used : ℤ} {message : StoreMessage}
      (hcomplete : CompleteAfter chunks position reads)
      (hunpack : (unpack (available chunks position reads) {}).value = some (used, message))
      (hreply : used < 0 ∨ message.mt = mt) : Answered mt chunks position
  | torn {position reads : ℕ} {used : ℤ} {message : StoreMessage}
      (hcomplete : CompleteAfter chunks position reads)
      (hunpack : (unpack (available chunks position reads) {}).value = some (used, message))
      (hused : 0 ≤ used) (hne : available chunks (position + used.toNat) reads ≠ [])
      (hfull : full (available chunks (position + used.toNat) reads) = false) : Answered mt chunks position
  | skip {position reads : ℕ} {used : ℤ} {message : StoreMessage}
      (hcomplete : CompleteAfter chunks position reads)
      (hunpack : (unpack (available chunks position reads) {}).value = some (used, message))
      (hused : 0 ≤ used) (hnext : Answered mt chunks (position + used.toNat)) : Answered mt chunks position

section

variable {chunks : List Bytes} {position reads : ℕ}

theorem CompleteAfter.eq {reads' : ℕ} (h : CompleteAfter chunks position reads)
    (h' : CompleteAfter chunks position reads') : reads = reads' := by
  rcases Nat.lt_trichotomy reads reads' with hlt | heq | hgt
  · have hnot := h'.2 reads hlt
    rw [h.1] at hnot
    cases hnot
  · exact heq
  · have hnot := h.2 reads' hgt
    rw [h'.1] at hnot
    cases hnot

theorem available_add (used : ℕ) :
    available chunks (position + used) reads = (available chunks position reads).drop used := by
  rw [available, available, List.drop_drop]

theorem available_prefix {reads' : ℕ} (h : reads ≤ reads') :
    available chunks position reads <+: available chunks position reads' := by
  obtain ⟨more, rfl⟩ := Nat.exists_eq_add_of_le h
  rw [available, available, List.take_add, List.flatten_append, List.drop_append]
  exact List.prefix_append _ _

theorem available_succ (h : position ≤ (chunks.take reads).flatten.length) :
    available chunks position (reads + 1) = available chunks position reads ++ (chunks[reads]?).getD [] := by
  rw [available, available, List.take_add_one, List.flatten_append, List.drop_append_of_le_length h]
  congr 1
  cases chunks[reads]? with
  | none => rfl
  | some chunk => simp

theorem full_iff {buffer : Bytes} : full buffer = true ↔ 13 ≤ buffer.length ∧ declaredSize buffer ≤ buffer.length := by
  rw [full, Bool.and_eq_true, decide_eq_true_eq, decide_eq_true_eq]

theorem declaredSize_eq_of_extends {buffer buffer' : Bytes} (h : buffer <+: buffer') (hlength : 8 ≤ buffer.length) :
    declaredSize buffer = declaredSize buffer' := by
  obtain ⟨more, rfl⟩ := h
  rw [declaredSize, declaredSize, List.take_append_of_le_length hlength]

/-- What `Unpack` returns, if it is no error, is the size that the message declares. -/
theorem toNat_used {buffer : Bytes} {used : ℤ} {message : StoreMessage} (hfull : full buffer = true)
    (h : (unpack buffer {}).value = some (used, message)) (hused : 0 ≤ used) :
    used.toNat = declaredSize buffer := by
  have hlt := declaredSize_lt buffer
  rw [used_of_value_unpack hfull h, toInt64] at hused ⊢
  split at hused
  · rename_i hsmall
    rw [if_pos hsmall, Int.toNat_natCast]
  · omega

/-- The next message is not complete earlier. -/
theorem CompleteAfter.next {used : ℤ} {message : StoreMessage} (h : CompleteAfter chunks position reads)
    (hunpack : (unpack (available chunks position reads) {}).value = some (used, message)) (hused : 0 ≤ used)
    {i : ℕ} (hi : i < reads) : full (available chunks (position + used.toNat) i) = false := by
  by_contra hnot
  rw [Bool.not_eq_false, full_iff, available_add, List.length_drop] at hnot
  have hinit : available chunks position i <+: available chunks position reads := available_prefix hi.le
  have hsize : declaredSize (available chunks position i) = used.toNat := by
    rw [declaredSize_eq_of_extends hinit (by omega), toNat_used h.1 hunpack hused]
  have hfull : full (available chunks position i) = true := by
    rw [full_iff, hsize]
    omega
  rw [h.2 i hi] at hfull
  cases hfull

end

/-! ### `Client::SyncCall` -/

namespace SyncCall

/-- The call has made so many reads, and the message at the position is at the head of its buffer. -/
structure IsAt (chunks : List Bytes) (position reads : ℕ) (s : SyncCall) : Prop where
  unread : s.unread = (chunks.drop reads).map .data
  buffer : s.responseBuf = available chunks position reads
  le : position ≤ (chunks.take reads).flatten.length

variable {chunks : List Bytes} {position reads : ℕ} {s : SyncCall}

theorem Returns.head (h : s.step.Returns) : s.Returns := by
  obtain ⟨n, result, hn⟩ := h
  exact ⟨n + 1, result, hn⟩

theorem Returns.of_reaches {t : SyncCall} (hreach : s.Reaches t) (ht : t.Returns) : s.Returns := by
  obtain ⟨n, rfl⟩ := hreach
  obtain ⟨k, result, hk⟩ := ht
  exact ⟨k + n, result, by rw [Function.iterate_add_apply, hk]⟩

theorem IsAt.read (h : IsAt chunks position reads s) (hphase : s.phase = .read) :
    IsAt chunks position (reads + 1) s.step ∧ s.step.mt = s.mt ∧
      s.step.phase = if full (available chunks position (reads + 1)) then .unpack else .read := by
  have hnext := available_succ h.le
  by_cases hlt : reads < chunks.length
  · have hunread : s.unread = .data chunks[reads] :: (chunks.drop (reads + 1)).map .data := by
      rw [h.unread, List.drop_eq_getElem_cons hlt, List.map_cons]
    rw [List.getElem?_eq_getElem hlt, Option.getD_some] at hnext
    have hstep : s.step = { s with
        unread := (chunks.drop (reads + 1)).map .data
        consumed := s.consumed + chunks[reads].length
        responseBuf := s.responseBuf ++ chunks[reads] }.testFull := by
      rw [step, hphase]
      simp only [hunread]
    rw [hstep]
    refine ⟨⟨rfl, ?_, ?_⟩, rfl, ?_⟩
    · rw [hnext, ← h.buffer]
      rfl
    · apply h.le.trans
      rw [List.take_add_one, List.flatten_append, List.length_append]
      exact Nat.le_add_right _ _
    · rw [hnext, ← h.buffer]
      rfl
  · have hnone : chunks[reads]? = none := List.getElem?_eq_none (by omega)
    have hunread : s.unread = [] := by
      rw [h.unread, List.drop_eq_nil_of_le (by omega), List.map_nil]
    rw [hnone, Option.getD_none, List.append_nil] at hnext
    have hstep : s.step = s.testFull := by
      rw [step, hphase]
      simp only [hunread]
    rw [hstep]
    refine ⟨⟨?_, ?_, ?_⟩, rfl, ?_⟩
    · show s.unread = _
      rw [hunread, List.drop_eq_nil_of_le (by omega), List.map_nil]
    · rw [hnext, ← h.buffer]
      rfl
    · rw [List.take_of_length_le (by omega)]
      have hle := h.le
      rw [List.take_of_length_le (by omega)] at hle
      exact hle
    · rw [hnext, ← h.buffer]
      rfl

/-- `Unpack` at the head of the buffer. -/
theorem IsAt.unpack (h : IsAt chunks position reads s) (hphase : s.phase = .unpack)
    (hfull : full (available chunks position reads) = true) {used : ℤ} {message : StoreMessage}
    (hunpack : (Store.unpack (available chunks position reads) {}).value = some (used, message)) :
    if used < 0 ∨ message.mt = s.mt then ∃ result, s.step.phase = .returned result
    else IsAt chunks (position + used.toNat) reads s.step ∧ s.step.mt = s.mt ∧ s.step.phase = .unpack := by
  have hlength := full_iff.mp hfull
  have hne : s.responseBuf.isEmpty = false := by
    rw [h.buffer, List.isEmpty_eq_false_iff]
    intro hnil
    rw [hnil] at hlength
    simp at hlength
  have hvalue : (Store.unpack s.responseBuf s.response).value = some (used, accumulate s.response message) := by
    rw [h.buffer, value_unpack_accumulate hfull, hunpack]
    rfl
  rw [step, hphase]
  simp only [hne, Bool.false_eq_true, if_false, hvalue]
  by_cases hneg : used < 0
  · rw [if_pos (Or.inl hneg), if_pos hneg]
    exact ⟨-1, rfl⟩
  · rw [if_neg hneg]
    by_cases hmt : message.mt = s.mt
    · rw [if_pos (Or.inr hmt)]
      exact ⟨0, if_pos hmt⟩
    · rw [if_neg (not_or.mpr ⟨hneg, hmt⟩)]
      refine ⟨⟨h.unread, ?_, ?_⟩, rfl, if_neg hmt⟩
      · rw [available_add, ← h.buffer]
      · have hsize := toNat_used hfull hunpack (not_lt.mp hneg)
        have hle := hlength.2
        rw [available, List.length_drop, ← available, ← hsize] at hle
        have hat := h.le
        omega

theorem IsAt.unpack_empty (h : IsAt chunks position reads s) (hphase : s.phase = .unpack)
    (hempty : available chunks position reads = []) :
    IsAt chunks position reads s.step ∧ s.step.mt = s.mt ∧ s.step.phase = .read := by
  have hbuf : s.responseBuf.isEmpty = true := by
    rw [h.buffer, hempty]
    rfl
  rw [step, hphase]
  simp only [hbuf, if_true]
  exact ⟨⟨h.unread, h.buffer, h.le⟩, trivial, trivial⟩

theorem IsAt.unpack_torn (h : IsAt chunks position reads s) (hphase : s.phase = .unpack)
    (hne : available chunks position reads ≠ []) (hfull : full (available chunks position reads) = false) :
    s.step.phase = .returned (-1) := by
  have hbuf : s.responseBuf.isEmpty = false := by
    rw [h.buffer, List.isEmpty_eq_false_iff]
    exact hne
  rw [step, hphase]
  simp only [hbuf, Bool.false_eq_true, if_false]
  rw [h.buffer, value_unpack_of_not_full hfull]
  rfl

theorem IsAt.unpack_undefined (h : IsAt chunks position reads s) (hphase : s.phase = .unpack)
    (hfull : full (available chunks position reads) = true)
    (hunpack : (Store.unpack (available chunks position reads) {}).value = none) : s.step.phase = .undefined := by
  have hlength := full_iff.mp hfull
  have hne : s.responseBuf.isEmpty = false := by
    rw [h.buffer, List.isEmpty_eq_false_iff]
    intro hnil
    rw [hnil] at hlength
    simp at hlength
  have hvalue : (Store.unpack s.responseBuf s.response).value = none := by
    rw [h.buffer, value_unpack_accumulate hfull, hunpack]
    rfl
  rw [step, hphase]
  simp only [hne, Bool.false_eq_true, if_false, hvalue]

/-- Reading on until the message is complete. -/
theorem IsAt.fill {reads' : ℕ} (h : IsAt chunks position reads s) (hphase : s.phase = .read)
    (hcomplete : CompleteAfter chunks position reads') (hlt : reads < reads') :
    ∃ t, s.Reaches t ∧ IsAt chunks position reads' t ∧ t.mt = s.mt ∧ t.phase = .unpack := by
  obtain ⟨more, rfl⟩ := Nat.exists_eq_add_of_lt hlt
  induction more generalizing reads s with
  | zero =>
    obtain ⟨hat, hmt, hnext⟩ := h.read hphase
    rw [if_pos hcomplete.1] at hnext
    exact ⟨s.step, Reaches.head (Reaches.refl _), hat, hmt, hnext⟩
  | succ more ih =>
    obtain ⟨hat, hmt, hnext⟩ := h.read hphase
    rw [hcomplete.2 (reads + 1) (by omega), if_neg Bool.false_ne_true] at hnext
    have hshift : reads + (more + 1) + 1 = reads + 1 + more + 1 := by omega
    rw [hshift] at hcomplete ⊢
    obtain ⟨t, hreach, hat', hmt', ht⟩ := ih hat hnext hcomplete (by omega)
    exact ⟨t, hreach.head, hat', hmt'.trans hmt, ht⟩

/-- At the head of the loop `while (!responseBuf.empty())` the call fails, or it comes to the next message. -/
theorem entry_cases {reads' : ℕ} (hat : IsAt chunks position reads s) (hphase : s.phase = .unpack)
    (hbefore : ∀ i < reads, full (available chunks position i) = false)
    (hcomplete : CompleteAfter chunks position reads') :
    s.Returns ∨ ∃ t, s.Reaches t ∧ IsAt chunks position reads' t ∧ t.mt = s.mt ∧ t.phase = .unpack := by
  cases hfull : full (available chunks position reads) with
  | true =>
    have hsame : reads = reads' := CompleteAfter.eq ⟨hfull, hbefore⟩ hcomplete
    exact Or.inr ⟨s, Reaches.refl s, hsame ▸ hat, rfl, hphase⟩
  | false =>
    by_cases hempty : available chunks position reads = []
    · obtain ⟨hat', hmt', hnext⟩ := hat.unpack_empty hphase hempty
      have hlt : reads < reads' := by
        by_contra hle
        rcases Nat.lt_or_eq_of_le (not_lt.mp hle) with hearlier | rfl
        · have hnot := hbefore reads' hearlier
          rw [hcomplete.1] at hnot
          cases hnot
        · rw [hcomplete.1] at hfull
          cases hfull
      obtain ⟨t, hreach, hat'', hmt'', ht⟩ := hat'.fill hnext hcomplete hlt
      exact Or.inr ⟨t, hreach.head, hat'', hmt''.trans hmt', ht⟩
    · exact Or.inl ⟨1, -1, hat.unpack_torn hphase hempty hfull⟩

/-- Where the stream leads to an answer, the call returns. -/
theorem returns_of_answered {mt : MessageType} (h : Answered mt chunks position) {reads : ℕ} {s : SyncCall}
    (hmt : s.mt = mt) (hat : IsAt chunks position reads s) (hphase : s.phase = .unpack)
    (hbefore : ∀ i < reads, full (available chunks position i) = false) : s.Returns := by
  induction h generalizing reads s with
  | @reply position complete used message hcomplete hunpack hreply =>
    rcases entry_cases hat hphase hbefore hcomplete with hreturns | ⟨t, hreach, hat', hmt', ht⟩
    · exact hreturns
    · have hstep := hat'.unpack ht hcomplete.1 hunpack
      rw [hmt', hmt, if_pos hreply] at hstep
      obtain ⟨result, hresult⟩ := hstep
      exact Returns.of_reaches hreach ⟨1, result, hresult⟩
  | @torn position complete used message hcomplete hunpack hused hne hfull =>
    rcases entry_cases hat hphase hbefore hcomplete with hreturns | ⟨t, hreach, hat', hmt', ht⟩
    · exact hreturns
    · have hstep := hat'.unpack ht hcomplete.1 hunpack
      apply Returns.of_reaches hreach
      split at hstep
      · obtain ⟨result, hresult⟩ := hstep
        exact ⟨1, result, hresult⟩
      · exact ⟨2, -1, hstep.1.unpack_torn hstep.2.2 hne hfull⟩
  | @skip position complete used message hcomplete hunpack hused hnext ih =>
    rcases entry_cases hat hphase hbefore hcomplete with hreturns | ⟨t, hreach, hat', hmt', ht⟩
    · exact hreturns
    · have hstep := hat'.unpack ht hcomplete.1 hunpack
      apply Returns.of_reaches hreach
      split at hstep
      · obtain ⟨result, hresult⟩ := hstep
        exact ⟨1, result, hresult⟩
      · apply Returns.head
        apply ih (hstep.2.1.trans (hmt'.trans hmt)) hstep.1 hstep.2.2
        exact fun i hi => hcomplete.next hunpack hused hi

/-- A call that returns has been answered. -/
theorem answered_of_returned {mt : MessageType} (n : ℕ) {position reads : ℕ} {s : SyncCall} {result : ℤ}
    (hreturned : (step^[n] s).phase = .returned result) (hmt : s.mt = mt) (hat : IsAt chunks position reads s)
    (hbefore : ∀ i < reads, full (available chunks position i) = false)
    (hphase : (s.phase = .read ∧ full (available chunks position reads) = false) ∨ (s.phase = .unpack ∧
      (full (available chunks position reads) = true ∨ available chunks position reads = []))) :
    Answered mt chunks position := by
  induction n generalizing position reads s with
  | zero =>
    rcases hphase with ⟨hphase, -⟩ | ⟨hphase, -⟩
    · rw [Function.iterate_zero, id, hphase] at hreturned
      cases hreturned
    · rw [Function.iterate_zero, id, hphase] at hreturned
      cases hreturned
  | succ n ih =>
    rw [Function.iterate_succ_apply] at hreturned
    rcases hphase with ⟨hphase, hnot⟩ | ⟨hphase, hfull | hempty⟩
    · obtain ⟨hat', hmt', hnext⟩ := hat.read hphase
      have hbefore' : ∀ i < reads + 1, full (available chunks position i) = false := by
        intro i hi
        rcases Nat.lt_succ_iff_lt_or_eq.mp hi with hlt | rfl
        · exact hbefore i hlt
        · exact hnot
      apply ih hreturned (hmt'.trans hmt) hat' hbefore'
      cases hfull : full (available chunks position (reads + 1)) with
      | false =>
        rw [hfull, if_neg Bool.false_ne_true] at hnext
        exact Or.inl ⟨hnext, rfl⟩
      | true =>
        rw [hfull, if_pos rfl] at hnext
        exact Or.inr ⟨hnext, Or.inl rfl⟩
    · have hcomplete : CompleteAfter chunks position reads := ⟨hfull, hbefore⟩
      cases hunpack : (Store.unpack (available chunks position reads) {}).value with
      | none =>
        have hundefined := hat.unpack_undefined hphase hfull hunpack
        have hstay : step^[n] s.step = s.step := by
          apply Function.iterate_fixed
          rw [step, hundefined]
        rw [hstay, hundefined] at hreturned
        cases hreturned
      | some value =>
        obtain ⟨used, message⟩ := value
        have hstep := hat.unpack hphase hfull hunpack
        by_cases hreply : used < 0 ∨ message.mt = s.mt
        · exact .reply hcomplete hunpack (hmt ▸ hreply)
        · rw [if_neg hreply] at hstep
          obtain ⟨hat', hmt', hnext⟩ := hstep
          have hused : 0 ≤ used := not_lt.mp fun h => hreply (Or.inl h)
          have hbefore' : ∀ i < reads, full (available chunks (position + used.toNat) i) = false :=
            fun i hi => hcomplete.next hunpack hused hi
          cases hfull' : full (available chunks (position + used.toNat) reads) with
          | true =>
            exact .skip hcomplete hunpack hused
              (ih hreturned (hmt'.trans hmt) hat' hbefore' (Or.inr ⟨hnext, Or.inl hfull'⟩))
          | false =>
            by_cases hempty : available chunks (position + used.toNat) reads = []
            · exact .skip hcomplete hunpack hused
                (ih hreturned (hmt'.trans hmt) hat' hbefore' (Or.inr ⟨hnext, Or.inr hempty⟩))
            · exact .torn hcomplete hunpack hused hempty hfull'
    · obtain ⟨hat', hmt', hnext⟩ := hat.unpack_empty hphase hempty
      apply ih hreturned (hmt'.trans hmt) hat' hbefore
      rw [hempty]
      exact Or.inl ⟨hnext, rfl⟩

/-- A call returns if and only if the stream leads to an answer. -/
theorem returns_iff (mt : MessageType) (chunks : List Bytes) :
    Returns { mt, unread := chunks.map .data } ↔ Answered mt chunks 0 := by
  constructor
  · rintro ⟨n, result, hreturned⟩
    have hat : IsAt chunks 0 0 { mt, unread := chunks.map .data } := ⟨rfl, rfl, Nat.zero_le _⟩
    exact answered_of_returned n hreturned rfl hat (fun _ hi => absurd hi (Nat.not_lt_zero _)) (Or.inl ⟨rfl, rfl⟩)
  · intro h
    -- One step before, with nothing in its buffer, the call was behind a message.
    have hat : IsAt chunks 0 0 { mt, unread := chunks.map .data, phase := .unpack } := ⟨rfl, rfl, Nat.zero_le _⟩
    obtain ⟨n, result, hreturned⟩ :=
      returns_of_answered h rfl hat rfl fun _ hi => absurd hi (Nat.not_lt_zero _)
    cases n with
    | zero => cases hreturned
    | succ n => exact ⟨n, result, hreturned⟩

end SyncCall

/-! ### `Proxy::LoopProcessData` -/

namespace ProcessData

/-- `responseBuf` after so many reads. -/
def buffered (responseBuf : Bytes) (chunks : List Bytes) (reads : ℕ) : Bytes :=
  responseBuf ++ (chunks.take reads).flatten

/-- `responseBuf` takes in a whole message, and `WriteData` can send it on. -/
def Forwarded (responseBuf : Bytes) (chunks : List Bytes) (writes : ℕ → ℕ) : Prop :=
  ∃ reads used message, full (buffered responseBuf chunks reads) = true ∧
    (∀ i < reads, full (buffered responseBuf chunks i) = false) ∧
    (unpack (buffered responseBuf chunks reads) {}).value = some (used, message) ∧
    (message.fd < 0 ∨ used < 2 ^ 32 ∨ ∃ i, writes i = 0)

variable {p : ProcessData}

theorem Returns.head (h : p.step.Returns) : p.Returns := by
  obtain ⟨n, hn⟩ := h
  exact ⟨n + 1, hn⟩

theorem Returns.tail (h : p.Returns) (hphase : p.phase ≠ .done) : p.step.Returns := by
  obtain ⟨n, hn⟩ := h
  cases n with
  | zero => exact absurd hn hphase
  | succ n => exact ⟨n, hn⟩

/-- A step leads there and back. -/
theorem returns_step (hphase : p.phase ≠ .done) : p.step.Returns ↔ p.Returns :=
  ⟨Returns.head, fun h => h.tail hphase⟩

/-- `WriteData` ends if its size fits into its counter. -/
theorem returns_write {offset : UInt32} {unpackSize : ℤ} (hphase : p.phase = .write offset unpackSize)
    (hsize : unpackSize < 2 ^ 32) : p.Returns := by
  induction hrest : unpackSize.toNat - offset.toNat using Nat.strong_induction_on generalizing p offset with
  | _ rest ih =>
    apply Returns.head
    by_cases hlt : (offset.toNat : ℤ) < unpackSize
    · by_cases hzero : min (p.writes 0) (unpackSize.toNat - offset.toNat) = 0
      · refine ⟨0, ?_⟩
        rw [Function.iterate_zero, id, step, hphase]
        simp only [hlt, hzero, if_true]
      · have hnext : p.step.phase = .write
            (offset + UInt32.ofNat (min (p.writes 0) (unpackSize.toNat - offset.toNat))) unpackSize := by
          rw [step, hphase]
          simp only [hlt, if_true, hzero, if_false]
        have hoffset : (offset + UInt32.ofNat (min (p.writes 0) (unpackSize.toNat - offset.toNat))).toNat =
            offset.toNat + min (p.writes 0) (unpackSize.toNat - offset.toNat) := by
          rw [UInt32.toNat_add, UInt32.toNat_ofNat', Nat.add_mod_mod, Nat.mod_eq_of_lt]
          omega
        exact ih _ (by rw [hoffset]; omega) hnext rfl
    · refine ⟨0, ?_⟩
      rw [Function.iterate_zero, id, step, hphase]
      simp only [hlt, if_false]

/-- It ends, too, if a `write` fails. -/
theorem returns_write_of_failure {i : ℕ} {offset : UInt32} {unpackSize : ℤ}
    (hphase : p.phase = .write offset unpackSize) (hzero : p.writes i = 0) : p.Returns := by
  induction i generalizing p offset with
  | zero =>
    refine ⟨1, ?_⟩
    rw [Function.iterate_one, step, hphase]
    simp only [hzero, Nat.zero_min, if_true]
    split
    · rfl
    · rfl
  | succ i ih =>
    apply Returns.head
    by_cases hlt : (offset.toNat : ℤ) < unpackSize
    · by_cases hnone : min (p.writes 0) (unpackSize.toNat - offset.toNat) = 0
      · refine ⟨0, ?_⟩
        rw [Function.iterate_zero, id, step, hphase]
        simp only [hlt, hnone, if_true]
      · have hstep : p.step = { p with
            writes := fun i => p.writes (i + 1)
            phase := .write (offset + UInt32.ofNat (min (p.writes 0) (unpackSize.toNat - offset.toNat)))
              unpackSize } := by
          rw [step, hphase]
          simp only [hlt, if_true, hnone, if_false]
        rw [hstep]
        exact ih rfl hzero
    · refine ⟨0, ?_⟩
      rw [Function.iterate_zero, id, step, hphase]
      simp only [hlt, if_false]

/-- Otherwise the counter wraps around for ever. -/
theorem not_returns_write {offset : UInt32} {unpackSize : ℤ} (hphase : p.phase = .write offset unpackSize)
    (hsize : 2 ^ 32 ≤ unpackSize) (hwrites : ∀ i, p.writes i ≠ 0) : ¬ p.Returns := by
  rintro ⟨n, hn⟩
  induction n generalizing p offset with
  | zero =>
    rw [Function.iterate_zero, id, hphase] at hn
    cases hn
  | succ n ih =>
    have hoffset := offset.toNat_lt
    have hlt : (offset.toNat : ℤ) < unpackSize := by omega
    have hnone : min (p.writes 0) (unpackSize.toNat - offset.toNat) ≠ 0 := by
      have hwrite := hwrites 0
      omega
    have hstep : p.step = { p with
        writes := fun i => p.writes (i + 1)
        phase := .write (offset + UInt32.ofNat (min (p.writes 0) (unpackSize.toNat - offset.toNat)))
          unpackSize } := by
      rw [step, hphase]
      simp only [hlt, if_true, hnone, if_false]
    rw [Function.iterate_succ_apply, hstep] at hn
    exact ih rfl (fun i => hwrites (i + 1)) hn

/-- The body with a whole message in its buffer. -/
theorem returns_of_full (hphase : p.phase = .read) (hfull : full p.responseBuf = true) :
    p.Returns ↔ ∃ used message, (unpack p.responseBuf {}).value = some (used, message) ∧
      (message.fd < 0 ∨ used < 2 ^ 32 ∨ ∃ i, p.writes i = 0) := by
  rw [← returns_step (by rw [hphase]; exact fun h => by cases h), step, hphase]
  simp only [hfull, if_true]
  cases hvalue : (unpack p.responseBuf {}).value with
  | none =>
    constructor
    · rintro ⟨n, hn⟩
      have hstay : step^[n] { p with phase := .undefined } = { p with phase := .undefined } :=
        Function.iterate_fixed rfl n
      rw [hstay] at hn
      cases hn
    · rintro ⟨used, message, hnone, -⟩
      cases hnone
  | some value =>
    obtain ⟨used, message⟩ := value
    simp only [Option.some.injEq, Prod.mk.injEq]
    by_cases hused : used < 0
    · rw [if_pos hused]
      exact iff_of_true ⟨0, rfl⟩ ⟨used, message, ⟨rfl, rfl⟩, Or.inr (Or.inl (by omega))⟩
    · rw [if_neg hused]
      by_cases hfd : message.fd < 0
      · rw [if_pos hfd]
        exact iff_of_true ⟨0, rfl⟩ ⟨used, message, ⟨rfl, rfl⟩, Or.inl hfd⟩
      · rw [if_neg hfd]
        constructor
        · intro h
          refine ⟨used, message, ⟨rfl, rfl⟩, Or.inr ?_⟩
          by_contra hnot
          rw [not_or, not_lt, not_exists] at hnot
          exact not_returns_write (p := { p with phase := .write 0 used }) rfl hnot.1 hnot.2 h
        · rintro ⟨used', message', ⟨rfl, rfl⟩, hfd' | hsize | ⟨i, hzero⟩⟩
          · exact absurd hfd' hfd
          · exact returns_write rfl hsize
          · exact returns_write_of_failure rfl hzero

/-- The body ends if and only if a whole message comes, and what is to be sent on can be. -/
theorem returns_iff (writes : ℕ → ℕ) (responseBuf : Bytes) (chunks : List Bytes) :
    Returns { unread := chunks.map .data, writes, responseBuf } ↔ Forwarded responseBuf chunks writes := by
  induction chunks generalizing responseBuf with
  | nil =>
    have hbuffered (i : ℕ) : buffered responseBuf [] i = responseBuf := by
      rw [buffered, List.take_nil, List.flatten_nil, List.append_nil]
    cases hfull : full responseBuf with
    | true =>
      rw [returns_of_full rfl hfull, Forwarded]
      constructor
      · rintro ⟨used, message, hvalue, hend⟩
        refine ⟨0, used, message, ?_, fun i hi => absurd hi (Nat.not_lt_zero i), ?_, hend⟩
        · rw [hbuffered, hfull]
        · rw [hbuffered]
          exact hvalue
      · rintro ⟨reads, used, message, -, -, hvalue, hend⟩
        rw [hbuffered] at hvalue
        exact ⟨used, message, hvalue, hend⟩
    | false =>
      constructor
      · rintro ⟨n, hn⟩
        have hstay : step^[n] { unread := [], writes, responseBuf } = { unread := [], writes, responseBuf } := by
          apply Function.iterate_fixed
          rw [step]
          simp only [hfull, Bool.false_eq_true, if_false]
        rw [List.map_nil, hstay] at hn
        cases hn
      · rintro ⟨reads, used, message, hreads, -⟩
        rw [hbuffered, hfull] at hreads
        cases hreads
  | cons chunk chunks ih =>
    have hfirst : buffered responseBuf (chunk :: chunks) 0 = responseBuf := by
      rw [buffered, List.take_zero, List.flatten_nil, List.append_nil]
    have hlater (i : ℕ) : buffered responseBuf (chunk :: chunks) (i + 1) = buffered (responseBuf ++ chunk) chunks i := by
      rw [buffered, buffered, List.take_succ_cons, List.flatten_cons, List.append_assoc]
    cases hfull : full responseBuf with
    | true =>
      rw [returns_of_full rfl hfull, Forwarded]
      constructor
      · rintro ⟨used, message, hvalue, hend⟩
        refine ⟨0, used, message, ?_, fun i hi => absurd hi (Nat.not_lt_zero i), ?_, hend⟩
        · rw [hfirst, hfull]
        · rw [hfirst]
          exact hvalue
      · rintro ⟨reads, used, message, -, hbefore, hvalue, hend⟩
        cases reads with
        | zero =>
          rw [hfirst] at hvalue
          exact ⟨used, message, hvalue, hend⟩
        | succ reads =>
          have hnot := hbefore 0 (Nat.succ_pos _)
          rw [hfirst, hfull] at hnot
          cases hnot
    | false =>
      have hstep : step { unread := (chunk :: chunks).map .data, writes, responseBuf } =
          { unread := chunks.map .data, writes, responseBuf := responseBuf ++ chunk } := by
        rw [step]
        simp only [hfull, Bool.false_eq_true, if_false, List.map_cons]
      rw [← returns_step (fun h => by cases h), hstep, ih, Forwarded, Forwarded]
      constructor
      · rintro ⟨reads, used, message, hreads, hbefore, hvalue, hend⟩
        refine ⟨reads + 1, used, message, by rw [hlater, hreads], ?_, by rw [hlater, hvalue], hend⟩
        intro i hi
        cases i with
        | zero => rw [hfirst, hfull]
        | succ i => rw [hlater, hbefore i (by omega)]
      · rintro ⟨reads, used, message, hreads, hbefore, hvalue, hend⟩
        cases reads with
        | zero =>
          rw [hfirst, hfull] at hreads
          cases hreads
        | succ reads =>
          rw [hlater] at hreads hvalue
          refine ⟨reads, used, message, hreads, fun i hi => ?_, hvalue, hend⟩
          rw [← hlater, hbefore (i + 1) (by omega)]

end ProcessData

/-! ### Both loops at the end of the file -/

/-- When the loops end whose reads bring some chunks and nothing after them. -/
theorem readLoops_return_iff (chunks : List Bytes) :
    (∀ mt, SyncCall.Returns { mt, unread := chunks.map .data } ↔ Answered mt chunks 0) ∧
      ∀ (writes : ℕ → ℕ) (responseBuf : Bytes),
        ProcessData.Returns { unread := chunks.map .data, writes, responseBuf } ↔
          ProcessData.Forwarded responseBuf chunks writes :=
  ⟨fun mt => SyncCall.returns_iff mt chunks, fun writes responseBuf =>
    ProcessData.returns_iff writes responseBuf chunks⟩

/-- A call that has come to stand still does not return. -/
theorem SyncCall.not_returns_of_fixed {s : SyncCall} {k : ℕ} (hfixed : (step^[k] s).step = step^[k] s)
    (hphase : ∀ i ≤ k, ∀ result, (step^[i] s).phase ≠ .returned result) : ¬ s.Returns := by
  rintro ⟨n, result, hn⟩
  rcases Nat.le_total n k with hle | hle
  · exact hphase n hle result hn
  · obtain ⟨i, rfl⟩ := Nat.exists_eq_add_of_le' hle
    rw [Function.iterate_add_apply, Function.iterate_fixed hfixed] at hn
    exact hphase k le_rfl result hn

/-- The server closes the connection at once; or it sends a message that declares the size 0. -/
theorem not_returns_closed :
    ¬ SyncCall.Returns { mt := .get, unread := [] } ∧
      ¬ SyncCall.Returns { mt := .get, unread := [.data (List.replicate 29 0)] } ∧
      ¬ ProcessData.Returns { unread := [], writes := fun _ => 1 } := by
  refine ⟨SyncCall.not_returns_of_fixed (k := 0) (by decide +kernel) ?_,
    SyncCall.not_returns_of_fixed (k := 2) (by decide +kernel) ?_, ?_⟩
  · intro i hi result
    obtain rfl := Nat.le_zero.mp hi
    exact nofun
  · intro i hi result
    match i, hi with
    | 0, _ => exact nofun
    | 1, _ =>
      have hphase : (SyncCall.step^[1] { mt := .get, unread := [.data (List.replicate 29 0)] }).phase = .unpack := by
        decide +kernel
      rw [hphase]
      exact nofun
    | 2, _ =>
      have hphase : (SyncCall.step^[2] { mt := .get, unread := [.data (List.replicate 29 0)] }).phase = .unpack := by
        decide +kernel
      rw [hphase]
      exact nofun
  · rintro ⟨n, hn⟩
    rw [Function.iterate_fixed rfl] at hn
    cases hn

end TorchNpu.Store

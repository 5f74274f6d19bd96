/-
  What `ReceiveData` makes of a byte stream.

  `Reads ctx ctx' data` is the effect of any number of read rounds: `data` stands behind what was
  received before, as long as the sum fits `recSize_`.  The extraction loop turns whole packed
  messages at the front of the buffer into requests (`extract_eq`).  Together, for messages `ms` and
  any way of cutting their packed bytes into calls and chunks:

  * `receiveAll_eq`: if no call makes `recSize_` reach 2^32, the requests taken are `ms`;
  * `exists_lossy_calls`: if the packed bytes are 2^32 or more, some cut loses messages.
-/
import TorchNpu.Store.ClientIo
import TorchNpu.Store.Spec.Packer
import TorchNpu.Lib.Framing

namespace TorchNpu.Store.ClientIoContext

/-! ### The read loop -/

/-- `ctx'` is `ctx` after reads that returned `data`. -/
structure Reads (ctx ctx' : ClientIoContext) (data : Bytes) : Prop where
  recSize : ctx'.recSize = ctx.recSize + UInt32.ofNat data.length
  recSize_le : ctx'.recSize.toNat ≤ ctx'.recBuf.length
  received : ctx.recSize.toNat + data.length < 2 ^ 32 →
    ctx'.recBuf.take ctx'.recSize.toNat = ctx.recBuf.take ctx.recSize.toNat ++ data
  requests : ctx'.requests = ctx.requests

theorem Reads.refl {ctx : ClientIoContext} (h : ctx.recSize.toNat ≤ ctx.recBuf.length) :
    Reads ctx ctx [] where
  recSize := by simp
  recSize_le := h
  received := by simp
  requests := rfl

theorem Reads.toNat_recSize {ctx ctx' : ClientIoContext} {data : Bytes} (h : Reads ctx ctx' data) :
    ctx'.recSize.toNat = (ctx.recSize.toNat + data.length) % 2 ^ 32 := by
  rw [h.recSize, UInt32.toNat_add, UInt32.toNat_ofNat', Nat.add_mod_mod]

theorem Reads.trans {a b c : ClientIoContext} {data later : Bytes} (h : Reads a b data)
    (h' : Reads b c later) : Reads a c (data ++ later) where
  recSize := by
    rw [h'.recSize, h.recSize, List.length_append, UInt32.ofNat_add, UInt32.add_assoc]
  recSize_le := h'.recSize_le
  received hlt := by
    rw [List.length_append] at hlt
    have hb := h.toNat_recSize
    rw [Nat.mod_eq_of_lt (by omega)] at hb
    rw [h'.received (by omega), h.received (by omega), List.append_assoc]
  requests := h'.requests.trans h.requests

theorem reads_expendRecBuf {ctx : ClientIoContext} (h : ctx.recSize.toNat ≤ ctx.recBuf.length) :
    Reads ctx ctx.expendRecBuf [] := by
  unfold expendRecBuf
  split_ifs
  · refine ⟨by simp, ?_, fun _ => ?_, rfl⟩
    · show ctx.recSize.toNat ≤ (ctx.recBuf ++ List.replicate bufferExpendSize 0).length
      rw [List.length_append]
      omega
    · rw [List.append_nil]
      exact List.take_append_of_le_length h
  · exact Reads.refl h

theorem le_room_expendRecBuf {ctx : ClientIoContext}
    (h : ctx.recSize.toNat ≤ ctx.recBuf.length) : 1 ≤ ctx.expendRecBuf.room := by
  unfold expendRecBuf room
  split_ifs with hlow
  · show 1 ≤ (ctx.recBuf ++ List.replicate bufferExpendSize 0).length - ctx.recSize.toNat
    rw [List.length_append, List.length_replicate, bufferExpendSize]
    omega
  · rw [bufferLowLevel] at hlow
    omega

theorem reads_readInto {ctx : ClientIoContext} (data : Bytes)
    (h : ctx.recSize.toNat ≤ ctx.recBuf.length) : Reads ctx (ctx.readInto data) data := by
  have hstart : (ctx.recBuf.take ctx.recSize.toNat).length = ctx.recSize.toNat :=
    List.length_take_of_le h
  have hsize : (ctx.readInto data).recSize.toNat = (ctx.recSize.toNat + data.length) % 2 ^ 32 := by
    show (ctx.recSize + UInt32.ofNat data.length).toNat = _
    rw [UInt32.toNat_add, UInt32.toNat_ofNat', Nat.add_mod_mod]
  refine ⟨rfl, ?_, fun hlt => ?_, rfl⟩
  · have hmod := Nat.mod_le (ctx.recSize.toNat + data.length) (2 ^ 32)
    rw [hsize]
    show _ ≤ (ctx.recBuf.take ctx.recSize.toNat ++ data
      ++ ctx.recBuf.drop (ctx.recSize.toNat + data.length)).length
    rw [List.length_append, List.length_append, hstart]
    omega
  · rw [hsize, Nat.mod_eq_of_lt hlt]
    show (ctx.recBuf.take ctx.recSize.toNat ++ data
      ++ ctx.recBuf.drop (ctx.recSize.toNat + data.length)).take _ = _
    exact List.take_left' (by rw [List.length_append, hstart])

theorem reads_readLoop {ctx : ClientIoContext} (fuel : ℕ) (chunk : Bytes)
    (h : ctx.recSize.toNat ≤ ctx.recBuf.length) (hfuel : chunk.length ≤ fuel) :
    Reads ctx (readLoop fuel ctx chunk) chunk := by
  induction fuel generalizing ctx chunk with
  | zero =>
    rw [List.eq_nil_of_length_eq_zero (Nat.le_zero.mp hfuel)]
    exact Reads.refl h
  | succ fuel ih =>
    rw [readLoop]
    cases chunk with
    | nil => exact Reads.refl h
    | cons byte chunk =>
      simp only [List.isEmpty_cons, Bool.false_eq_true, if_false]
      have hexpend := reads_expendRecBuf h
      have hroom := le_room_expendRecBuf h
      have hread := reads_readInto ((byte :: chunk).take ctx.expendRecBuf.room)
        hexpend.recSize_le
      -- the room is never empty, so the chunk gets shorter
      have hlater := ih ((byte :: chunk).drop ctx.expendRecBuf.room) hread.recSize_le
        (by rw [List.length_drop]; omega)
      have hall := (hexpend.trans hread).trans hlater
      rwa [List.nil_append, List.take_append_drop] at hall

theorem reads_foldl_readChunk {ctx : ClientIoContext} (chunks : List Bytes)
    (h : ctx.recSize.toNat ≤ ctx.recBuf.length) :
    Reads ctx (chunks.foldl readChunk ctx) chunks.flatten := by
  induction chunks generalizing ctx with
  | nil => exact Reads.refl h
  | cons chunk chunks ih =>
    have hread := reads_readLoop chunk.length chunk h le_rfl
    rw [List.foldl_cons, List.flatten_cons]
    exact hread.trans (ih hread.recSize_le)

/-- The context after the read loop and the resize, before extraction. -/
def readAll (ctx : ClientIoContext) (chunks : List Bytes) : ClientIoContext :=
  (chunks.foldl readChunk ctx).expendRecBuf.resizeRecBuf

theorem receiveData_eq (ctx : ClientIoContext) (chunks : List Bytes) :
    ctx.receiveData chunks
      = extract ((ctx.readAll chunks).recBuf.length + 1) (ctx.readAll chunks) {} := rfl

theorem readAll_spec (ctx : ClientIoContext) (chunks : List Bytes)
    (h : ctx.recSize.toNat = ctx.recBuf.length) :
    (ctx.readAll chunks).recBuf.length = (ctx.readAll chunks).recSize.toNat
      ∧ (ctx.readAll chunks).recSize.toNat
          = (ctx.recBuf.length + chunks.flatten.length) % 2 ^ 32
      ∧ (ctx.recBuf.length + chunks.flatten.length < 2 ^ 32 →
          (ctx.readAll chunks).recBuf = ctx.recBuf ++ chunks.flatten)
      ∧ (ctx.readAll chunks).requests = ctx.requests := by
  have hreads := reads_foldl_readChunk chunks (Nat.le_of_eq h)
  have hall := hreads.trans (reads_expendRecBuf hreads.recSize_le)
  rw [List.append_nil] at hall
  have hbuf : (ctx.readAll chunks).recBuf
      = (chunks.foldl readChunk ctx).expendRecBuf.recBuf.take
          (chunks.foldl readChunk ctx).expendRecBuf.recSize.toNat := by
    show _ ++ List.replicate _ (0 : UInt8) = _
    rw [Nat.sub_eq_zero_of_le hall.recSize_le, List.replicate_zero, List.append_nil]
  refine ⟨?_, ?_, fun hlt => ?_, hall.requests⟩
  · rw [hbuf, List.length_take_of_le hall.recSize_le]
    rfl
  · rw [← h]
    exact hall.toNat_recSize
  · rw [hbuf, hall.received (by omega), h, List.take_length]

/-! ### The extraction loop -/

/-- Whole packed messages at the front of the buffer become requests; extraction stops at what is
not full. -/
theorem extract_eq {fuel : ℕ} {ctx : ClientIoContext} {request : StoreMessage}
    {ms : List StoreMessage} {tail : Bytes} (hfuel : ms.length < fuel)
    (hsize : ∀ m ∈ ms, (pack m).length < 2 ^ 63) (hbuf : ctx.recBuf = ms.flatMap pack ++ tail)
    (htail : full tail = false) (hkeys : request.keys = []) (hvalues : request.values = []) :
    extract fuel ctx request = some { ctx with
      requests := ctx.requests ++ ms
      recBuf := tail
      recSize := ctx.recSize - UInt32.ofNat (ms.flatMap pack).length } := by
  induction fuel generalizing ctx request ms with
  | zero => omega
  | succ fuel ih =>
    rw [extract]
    cases ms with
    | nil =>
      rw [List.flatMap_nil, List.nil_append] at hbuf
      rw [hbuf, value_unpack_of_not_full htail]
      simp [← hbuf]
    | cons m ms =>
      have hm := hsize m List.mem_cons_self
      have hpos := baseSize_le_totalSize m
      rw [← length_pack] at hpos
      rw [List.flatMap_cons, List.append_assoc] at hbuf
      rw [hbuf, value_unpack_pack_append hm, hkeys, hvalues]
      simp only [List.nil_append, Option.bind_eq_bind, Option.bind_some, Int.toNat_natCast]
      rw [if_pos (by omega), List.drop_left,
        ih (by simpa using hfuel) (fun m' hm' => hsize m' (List.mem_cons_of_mem m hm')) rfl rfl rfl]
      simp only [List.append_assoc, List.singleton_append, List.flatMap_cons, List.length_append,
        UInt32.ofNat_add, Option.some.injEq, mk.injEq, true_and, and_true]
      rw [UInt32.sub_eq_add_neg, UInt32.sub_eq_add_neg, UInt32.sub_eq_add_neg, UInt32.neg_add,
        UInt32.sub_eq_add_neg, UInt32.add_assoc]

theorem full_of_incomplete {ms : List StoreMessage} {tail : Bytes}
    (hsize : ∀ m ∈ ms, (pack m).length < 2 ^ 63) (h : Incomplete pack tail ms) :
    full tail = false := by
  cases ms with
  | nil =>
    obtain rfl : tail = [] := h
    rfl
  | cons m ms =>
    have hm := hsize m List.mem_cons_self
    exact full_of_prefix_pack (by omega) h.1 h.2

theorem length_le_length_flatMap_pack (ms : List StoreMessage) :
    ms.length ≤ (ms.flatMap pack).length := by
  induction ms with
  | nil => exact Nat.le_refl 0
  | cons m ms ih =>
    have hpos := baseSize_le_totalSize m
    rw [← length_pack] at hpos
    rw [List.flatMap_cons, List.length_append, List.length_cons]
    omega

/-! ### Whole calls -/

theorem takeRequests_eq (ctx : ClientIoContext) :
    takeRequests ctx.requests.length ctx = (ctx.requests, { ctx with requests := [] }) := by
  have key : ∀ (requests : List StoreMessage) (ctx : ClientIoContext), ctx.requests = requests →
      takeRequests requests.length ctx = (requests, { ctx with requests := [] }) := by
    intro requests
    induction requests with
    | nil =>
      rintro ⟨events, size, rec, send, requests⟩ rfl
      rfl
    | cons request requests ih =>
      rintro ⟨events, size, rec, send, all⟩ rfl
      rw [List.length_cons, takeRequests]
      simp only [hasNextReq, nextRequest, List.isEmpty_cons, Bool.not_false, if_true]
      rw [ih _ rfl]
  exact key ctx.requests ctx rfl

/-- Between calls: the bytes kept are the incomplete message, and no request waits. -/
structure Between (ctx : ClientIoContext) (tail : Bytes) : Prop where
  recBuf : ctx.recBuf = tail
  recSize : ctx.recSize.toNat = tail.length
  requests : ctx.requests = []

/-- One call on bytes that complete the messages `ms` and leave `tail'` of the next one. -/
theorem receiveData_eq_of_frames {ctx : ClientIoContext} {tail tail' : Bytes}
    {chunks : List Bytes} {ms : List StoreMessage} (hctx : Between ctx tail)
    (hfit : tail.length + chunks.flatten.length < 2 ^ 32)
    (hsize : ∀ m ∈ ms, (pack m).length < 2 ^ 63)
    (hdata : tail ++ chunks.flatten = ms.flatMap pack ++ tail') (htail : full tail' = false) :
    ∃ ctx', ctx.receiveData chunks = some ctx' ∧ ctx'.requests = ms
      ∧ Between { ctx' with requests := [] } tail' := by
  obtain ⟨hlen, hsz, hbuf, hreq⟩ :=
    readAll_spec ctx chunks (by rw [hctx.recSize, hctx.recBuf])
  rw [hctx.recBuf] at hsz hbuf
  rw [Nat.mod_eq_of_lt hfit] at hsz
  have hframes := (hbuf hfit).trans hdata
  have hall : tail.length + chunks.flatten.length = (ms.flatMap pack).length + tail'.length := by
    rw [← List.length_append, hdata, List.length_append]
  have hcount := length_le_length_flatMap_pack ms
  rw [receiveData_eq, extract_eq (by omega) hsize hframes htail rfl rfl, hreq, hctx.requests]
  refine ⟨_, rfl, List.nil_append ms, rfl, ?_, rfl⟩
  show ((ctx.readAll chunks).recSize - UInt32.ofNat (ms.flatMap pack).length).toNat = tail'.length
  have hms : (UInt32.ofNat (ms.flatMap pack).length).toNat = (ms.flatMap pack).length := by
    rw [UInt32.toNat_ofNat', Nat.mod_eq_of_lt (by omega)]
  rw [UInt32.toNat_sub_of_le _ _ (by rw [UInt32.le_iff_toNat_le, hms]; omega), hms]
  omega

/-- Number of bytes of some calls. -/
def bytesOf (calls : List (List Bytes)) : ℕ := calls.flatten.flatten.length

/-- At no call do the bytes kept from before and the bytes of the call reach 2^32 together. -/
def FitsRecSize (ms : List StoreMessage) (calls : List (List Bytes)) : Prop :=
  ∀ before call after, calls = before ++ call :: after →
    leftover pack ms (bytesOf before) + call.flatten.length < 2 ^ 32

theorem receiveAll_of_between {ctx : ClientIoContext} {tail : Bytes} {ms : List StoreMessage}
    {calls : List (List Bytes)} (hctx : Between ctx tail) (htail : Incomplete pack tail ms)
    (hsize : ∀ m ∈ ms, (pack m).length < 2 ^ 63)
    (hdata : tail ++ calls.flatten.flatten = ms.flatMap pack)
    (hfit : ∀ before call after, calls = before ++ call :: after →
      leftover pack ms (tail.length + bytesOf before) + call.flatten.length < 2 ^ 32) :
    ∃ ctx', receiveAll ctx calls = some (ms, ctx') ∧ Between ctx' [] := by
  induction calls generalizing ctx tail ms with
  | nil =>
    -- nothing is left to arrive, so no message is incomplete
    cases ms with
    | nil =>
      obtain rfl : tail = [] := htail
      exact ⟨ctx, rfl, hctx⟩
    | cons m ms =>
      have := congrArg List.length hdata
      have hlt := htail.2
      rw [List.flatten_nil, List.flatten_nil, List.append_nil, List.flatMap_cons,
        List.length_append] at this
      omega
  | cons call calls ih =>
    rw [List.flatten_cons, List.flatten_append, ← List.append_assoc] at hdata
    obtain ⟨whole, rest, tail', rfl, hseen, htail'⟩ :=
      exists_frames_of_seen pack ⟨_, hdata⟩
    have hrest : ∀ m ∈ rest, (pack m).length < 2 ^ 63 :=
      fun m hm => hsize m (List.mem_append_right whole hm)
    have hcall := hfit [] call calls rfl
    rw [show tail.length + bytesOf [] = tail.length from rfl, htail.leftover_eq] at hcall
    obtain ⟨ctx', hreceive, hrequests, hctx'⟩ := receiveData_eq_of_frames hctx hcall
      (fun m hm => hsize m (List.mem_append_left rest hm)) hseen (full_of_incomplete hrest htail')
    have hdata' : tail' ++ calls.flatten.flatten = rest.flatMap pack := by
      rw [hseen, List.flatMap_append, List.append_assoc] at hdata
      exact List.append_cancel_left hdata
    have hlen := congrArg List.length hseen
    rw [List.length_append, List.length_append] at hlen
    -- what was left over of all messages is what is left over of the remaining ones
    obtain ⟨ctx'', hlater, hctx''⟩ := ih hctx' htail' hrest hdata' (by
      intro before next after hsplit
      have hnext := hfit (call :: before) next after (by rw [hsplit, List.cons_append])
      rwa [show tail.length + bytesOf (call :: before)
          = (whole.flatMap pack).length + (tail'.length + bytesOf before) by
        simp only [bytesOf, List.flatten_cons, List.flatten_append, List.length_append]
        omega, leftover_append] at hnext)
    refine ⟨ctx'', ?_, hctx''⟩
    rw [receiveAll, hreceive]
    simp only [Option.bind_eq_bind, Option.bind_some, takeRequests_eq, hrequests, hlater]
    rfl

/-- If no call makes `recSize_` wrap, the requests taken are the messages sent. -/
theorem receiveAll_eq {ms : List StoreMessage} {calls : List (List Bytes)}
    (hsize : ∀ m ∈ ms, (pack m).length < 2 ^ 63)
    (hdata : calls.flatten.flatten = ms.flatMap pack) (hfit : FitsRecSize ms calls) :
    ∃ ctx, receiveAll {} calls = some (ms, ctx) ∧ Between ctx [] := by
  refine receiveAll_of_between ⟨rfl, rfl, rfl⟩ ?_ hsize hdata fun before call after hsplit => ?_
  · cases ms with
    | nil => rfl
    | cons m ms =>
      refine ⟨List.nil_prefix, ?_⟩
      have hpos := baseSize_le_totalSize m
      rw [length_pack]
      exact Nat.lt_of_lt_of_le (by decide) hpos
  · rw [List.length_nil, Nat.zero_add]
    exact hfit before call after hsplit

/-! ### Streams of 2^32 bytes and more -/

theorem leftover_le (ms : List StoreMessage) (n : ℕ) : leftover pack ms n ≤ n := by
  induction ms generalizing n with
  | nil => exact le_rfl
  | cons m ms ih =>
    rw [leftover]
    split_ifs
    · exact le_rfl
    · exact (ih _).trans (Nat.sub_le _ _)

theorem fitsRecSize_of_lt {ms : List StoreMessage} {calls : List (List Bytes)}
    (hdata : calls.flatten.flatten = ms.flatMap pack) (h : (ms.flatMap pack).length < 2 ^ 32) :
    FitsRecSize ms calls := by
  rintro before call after rfl
  have hle := leftover_le ms (bytesOf before)
  rw [← hdata] at h
  simp only [List.flatten_append, List.flatten_cons, List.length_append] at h
  unfold bytesOf at hle ⊢
  omega

theorem flatten_singletons (ms : List StoreMessage) :
    (ms.map fun m => [pack m]).flatten.flatten = ms.flatMap pack := by
  induction ms with
  | nil => rfl
  | cons m ms ih => rw [List.map_cons, List.flatten_cons, List.flatten_append, ih,
      List.flatMap_cons, List.flatten_singleton]

/-- One call for each message, for messages smaller than 2^32. -/
theorem fitsRecSize_singletons {ms : List StoreMessage}
    (h : ∀ m ∈ ms, (pack m).length < 2 ^ 32) : FitsRecSize ms (ms.map fun m => [pack m]) := by
  intro before call after hsplit
  obtain ⟨whole, rest, rfl, rfl, hrest⟩ := List.map_eq_append_iff.mp hsplit
  obtain ⟨m, rest, rfl, rfl, -⟩ := List.map_eq_cons_iff.mp hrest
  have hbytes : bytesOf (whole.map fun m => [pack m]) = (whole.flatMap pack).length + 0 := by
    rw [bytesOf, flatten_singletons, Nat.add_zero]
  have hm := h m (by simp)
  have hzero : leftover pack (m :: rest) 0 = 0 := Nat.le_zero.mp (leftover_le _ 0)
  rw [hbytes, leftover_append, hzero]
  simpa using hm

theorem receiveAll_append {ctx ctx' : ClientIoContext} {calls : List (List Bytes)}
    {ms : List StoreMessage} (later : List (List Bytes))
    (h : receiveAll ctx calls = some (ms, ctx')) :
    receiveAll ctx (calls ++ later)
      = (receiveAll ctx' later).map fun result => (ms ++ result.1, result.2) := by
  induction calls generalizing ctx ms with
  | nil =>
    obtain ⟨rfl, rfl⟩ : [] = ms ∧ ctx = ctx' := by simpa [receiveAll] using h
    simp
  | cons call calls ih =>
    rw [receiveAll] at h
    rw [List.cons_append, receiveAll]
    simp only [Option.bind_eq_bind, Option.bind_eq_some_iff] at h ⊢
    obtain ⟨ctx₁, hreceive, result, hresult, heq⟩ := h
    obtain ⟨rfl, rfl⟩ : (takeRequests ctx₁.requests.length ctx₁).1 ++ result.1 = ms
        ∧ result.2 = ctx' := by simpa using heq
    rw [hreceive]
    simp only [Option.bind_some, ih hresult]
    cases receiveAll result.2 later with
    | none => rfl
    | some later => simp

/-- A stream of 2^32 bytes or more can be split before a message that is longer than what
`recSize_` would count of the rest. -/
theorem exists_split_of_le {ms : List StoreMessage} (h : 2 ^ 32 ≤ (ms.flatMap pack).length) :
    ∃ whole m rest, ms = whole ++ m :: rest ∧ (∀ m' ∈ whole, (pack m').length < 2 ^ 32)
      ∧ ((m :: rest).flatMap pack).length % 2 ^ 32 < (pack m).length := by
  induction ms with
  | nil => exact absurd h (by decide)
  | cons m ms ih =>
    rw [List.flatMap_cons, List.length_append] at h
    by_cases hbig : 2 ^ 32 ≤ (pack m).length
    · exact ⟨[], m, ms, rfl, fun _ hm => absurd hm List.not_mem_nil,
        Nat.lt_of_lt_of_le (Nat.mod_lt _ (by decide)) hbig⟩
    · by_cases hrest : 2 ^ 32 ≤ (ms.flatMap pack).length
      · obtain ⟨whole, m', rest, rfl, hwhole, hmod⟩ := ih hrest
        refine ⟨m :: whole, m', rest, rfl, fun m'' hm => ?_, hmod⟩
        rcases List.mem_cons.mp hm with rfl | hm
        · omega
        · exact hwhole m'' hm
      · -- the rest is what makes the stream reach 2^32
        refine ⟨[], m, ms, rfl, fun _ hm => absurd hm List.not_mem_nil, ?_⟩
        rw [List.flatMap_cons, List.length_append, Nat.mod_eq_sub_mod h, Nat.mod_eq_of_lt (by omega)]
        omega

/-- The first request extracted has its packed image in the buffer. -/
theorem extract_requests_ne {fuel : ℕ} {ctx ctx' : ClientIoContext} {m : StoreMessage}
    {rest : List StoreMessage} (hreq : ctx.requests = []) (hlen : ctx.recBuf.length < (pack m).length)
    (hlen32 : ctx.recBuf.length < 2 ^ 32) (h : extract fuel ctx {} = some ctx') :
    ctx'.requests ≠ m :: rest := by
  have hgrow : ∀ (fuel : ℕ) (ctx ctx' : ClientIoContext) (request : StoreMessage),
      extract fuel ctx request = some ctx' → ctx.requests <+: ctx'.requests := by
    intro fuel
    induction fuel with
    | zero =>
      rintro ctx ctx' request ⟨⟩
      exact List.prefix_rfl
    | succ fuel ih =>
      intro ctx ctx' request h
      simp only [extract, Option.bind_eq_bind, Option.bind_eq_some_iff] at h
      obtain ⟨⟨used, request⟩, -, h⟩ := h
      dsimp only at h
      split_ifs at h
      · exact (List.prefix_append _ _).trans (ih _ _ _ h)
      · cases h
        exact List.prefix_rfl
  intro heq
  cases fuel with
  | zero =>
    cases h
    rw [hreq] at heq
    cases heq
  | succ fuel =>
    simp only [extract, Option.bind_eq_bind, Option.bind_eq_some_iff] at h
    obtain ⟨⟨used, request⟩, hvalue, h⟩ := h
    dsimp only at h
    split_ifs at h with hused
    · -- the first message extracted would be `m`, which does not fit the buffer
      obtain ⟨later, hlater⟩ := hgrow _ _ _ _ h
      rw [heq] at hlater
      simp only [hreq, List.nil_append, List.singleton_append, List.cons.injEq] at hlater
      have hfits := totalSize_le_of_value_unpack hvalue hused (by omega)
      rw [hlater.1, ← length_pack] at hfits
      omega
    · cases h
      rw [hreq] at heq
      cases heq

/-- One call whose bytes make `recSize_` wrap to less than the first message loses messages. -/
theorem receiveAll_one_call_ne {ctx ctx' : ClientIoContext} {m : StoreMessage}
    {rest : List StoreMessage} (hctx : Between ctx [])
    (hmod : ((m :: rest).flatMap pack).length % 2 ^ 32 < (pack m).length) :
    receiveAll ctx [[(m :: rest).flatMap pack]] ≠ some (m :: rest, ctx') := by
  intro h
  simp only [receiveAll, Option.bind_eq_bind, Option.bind_eq_some_iff, takeRequests_eq] at h
  obtain ⟨ctx₁, hreceive, result, ⟨rfl⟩, heq⟩ := h
  simp only [List.append_nil, Option.pure_def, Option.some.injEq, Prod.mk.injEq] at heq
  obtain ⟨hlen, hsz, -, hreq⟩ := readAll_spec ctx [(m :: rest).flatMap pack]
    (by rw [hctx.recSize, hctx.recBuf])
  rw [hctx.recBuf, List.length_nil, Nat.zero_add, List.flatten_singleton] at hsz
  rw [receiveData_eq] at hreceive
  exact extract_requests_ne (hreq.trans hctx.requests) (by omega) (by omega) hreceive heq.1

/-- Some cut of a stream of 2^32 bytes or more into calls does not give the messages back. -/
theorem exists_lossy_calls {ms : List StoreMessage} (hsize : ∀ m ∈ ms, (pack m).length < 2 ^ 63)
    (h : 2 ^ 32 ≤ (ms.flatMap pack).length) :
    ∃ calls : List (List Bytes), calls.flatten.flatten = ms.flatMap pack
      ∧ ∀ ctx, receiveAll {} calls ≠ some (ms, ctx) := by
  obtain ⟨whole, m, rest, rfl, hwhole, hmod⟩ := exists_split_of_le h
  -- the messages before the split one by one, then everything else in one call
  refine ⟨(whole.map fun m => [pack m]) ++ [[(m :: rest).flatMap pack]], ?_, fun ctx hall => ?_⟩
  · rw [List.flatten_append, List.flatten_append, flatten_singletons, List.flatMap_append,
      List.flatten_singleton, List.flatten_singleton]
  · obtain ⟨ctx₁, hfirst, hctx₁⟩ := receiveAll_eq
      (fun m' hm => hsize m' (List.mem_append_left _ hm)) (flatten_singletons whole)
      (fitsRecSize_singletons hwhole)
    rw [receiveAll_append _ hfirst, Option.map_eq_some_iff] at hall
    obtain ⟨⟨requests, ctx₂⟩, hlast, heq⟩ := hall
    simp only [Prod.mk.injEq, List.append_cancel_left_eq] at heq
    obtain ⟨rfl, rfl⟩ := heq
    exact receiveAll_one_call_ne hctx₁ hmod hlast

/-! ### The round trip -/

/-- Every message of `ms` decodes to itself and to its own size, whatever follows it; every cut of
the packed bytes of `ms` into calls and chunks gives `ms` back exactly when these bytes are fewer
than 2^32; and a given cut does so whenever no call makes `recSize_` reach 2^32. -/
theorem receiveAll_pack (ms : List StoreMessage) (hsize : ∀ m ∈ ms, (pack m).length < 2 ^ 63) :
    (∀ m ∈ ms, ∀ rest : Bytes,
        (unpack (pack m ++ rest) {}).value = some (((pack m).length : ℤ), m))
      ∧ ((∀ calls : List (List Bytes), calls.flatten.flatten = ms.flatMap pack →
            ∃ ctx, receiveAll {} calls = some (ms, ctx))
          ↔ (ms.flatMap pack).length < 2 ^ 32)
      ∧ ∀ calls : List (List Bytes), calls.flatten.flatten = ms.flatMap pack →
          FitsRecSize ms calls → ∃ ctx, receiveAll {} calls = some (ms, ctx) := by
  have hfits : ∀ calls : List (List Bytes), calls.flatten.flatten = ms.flatMap pack →
      FitsRecSize ms calls → ∃ ctx, receiveAll {} calls = some (ms, ctx) := by
    intro calls hdata hfit
    obtain ⟨ctx, hall, -⟩ := receiveAll_eq hsize hdata hfit
    exact ⟨ctx, hall⟩
  refine ⟨fun m hm rest => ?_, ⟨fun hcuts => ?_, fun hlt calls hdata => ?_⟩, hfits⟩
  · rw [value_unpack_pack_append (hsize m hm)]
    rfl
  · by_contra hlong
    obtain ⟨calls, hdata, hlossy⟩ := exists_lossy_calls hsize (Nat.le_of_not_lt hlong)
    obtain ⟨ctx, hall⟩ := hcuts calls hdata
    exact hlossy ctx hall
  · exact hfits calls hdata (fitsRecSize_of_lt hdata hlt)

/-- A `SET` request with one key of 27 bytes: 64 bytes on the wire. -/
def setOfKey27 : StoreMessage := { mt := .set, keys := [List.replicate 27 97] }

theorem receiveAll_pack_setOfKey27 :
    (∀ m ∈ [setOfKey27, setOfKey27], (pack m).length < 2 ^ 63)
      ∧ ∃ ctx, receiveAll {} [[(pack setOfKey27).take 5], [(pack setOfKey27).drop 5],
          [pack setOfKey27]] = some ([setOfKey27, setOfKey27], ctx) := by
  have hlen : (pack setOfKey27).length = 64 := by decide
  have hsize : ∀ m ∈ [setOfKey27, setOfKey27], (pack m).length < 2 ^ 63 := by
    intro m hm
    obtain rfl : m = setOfKey27 := by simpa using hm
    rw [hlen]
    norm_num
  refine ⟨hsize, ((receiveAll_pack _ hsize).2.1.mpr ?_) _ ?_⟩
  · simp [hlen]
  · simp [← List.append_assoc]

/-- 2^26 such requests that arrive during one call: `recSize_` wraps to zero and all are lost. -/
theorem receiveAll_two_pow_26_ne :
    (∀ m ∈ List.replicate (2 ^ 26) setOfKey27, (pack m).length < 2 ^ 63)
      ∧ [[(List.replicate (2 ^ 26) setOfKey27).flatMap pack]].flatten.flatten
          = (List.replicate (2 ^ 26) setOfKey27).flatMap pack
      ∧ ∀ ctx, receiveAll {} [[(List.replicate (2 ^ 26) setOfKey27).flatMap pack]]
          ≠ some (List.replicate (2 ^ 26) setOfKey27, ctx) := by
  have hlen : (pack setOfKey27).length = 64 := by decide
  refine ⟨fun m hm => ?_, ?_, fun ctx => ?_⟩
  · rw [List.eq_of_mem_replicate hm, hlen]
    norm_num
  · rw [List.flatten_singleton, List.flatten_singleton]
  · have hcons : List.replicate (2 ^ 26) setOfKey27
        = setOfKey27 :: List.replicate (2 ^ 26 - 1) setOfKey27 := by
      rw [← List.replicate_succ, Nat.sub_add_cancel (by norm_num)]
    rw [hcons]
    refine receiveAll_one_call_ne ⟨rfl, rfl, rfl⟩ ?_
    rw [← hcons, List.length_flatMap, List.map_replicate, List.sum_replicate_nat, hlen]
    norm_num

end TorchNpu.Store.ClientIoContext

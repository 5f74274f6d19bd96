/-
  What `Unpack` reads and what it returns.

  `within_unpackItems_iff` and `value_unpackItems` describe one item loop: it stays below `n`
  exactly when the bytes at its start are the packed image of `count` items that ends there, and
  then these are the items it returns.  `BodyWithin buffer n` is the corresponding condition on a
  whole buffer, stated with the encoder only: from byte 8 on, `buffer` continues with what `Pack`
  writes for some message after the size field, and that ends at or before byte `n`.  From it come

  * `unpack_pack_append`: the round trip on one message;
  * `unpackSafe_iff`: `Unpack` stays inside the declared size exactly on the buffers it does not
    accept and on those with `BodyWithin buffer (declaredSize buffer)`.
-/
import TorchNpu.Store.Packer
import Mathlib.Data.List.Infix
import Mathlib.Tactic.IntervalCases

namespace TorchNpu.Store

/-! ### Sizes and prefixes of the packed image -/

@[simp] theorem MessageType.ofNat_toNat (t : MessageType) : ofNat t.toNat = t := by
  cases t with
  | unnamed k =>
    show ofNat (11 + k) = unnamed k
    rw [Nat.add_comm]
    show unnamed (Fin.ofNat 245 k) = unnamed k
    rw [Fin.ofNat_val_eq_self]
  | _ => rfl

theorem MessageType.toNat_lt (t : MessageType) : t.toNat < 256 := by
  cases t with
  | unnamed k =>
    have hk := k.isLt
    show 11 + (k : ℕ) < 256
    omega
  | _ => decide

theorem MessageType.toNat_ofNat {n : ℕ} (h : n < 256) : (ofNat n).toNat = n := by
  rcases Nat.lt_or_ge n 11 with hn | hn
  · interval_cases n <;> rfl
  · obtain ⟨k, rfl⟩ : ∃ k, n = k + 11 := ⟨n - 11, by omega⟩
    show 11 + (Fin.ofNat 245 k : ℕ) = k + 11
    rw [Fin.val_ofNat, Nat.mod_eq_of_lt (by omega), Nat.add_comm]

@[simp] theorem packString_eq : packString = packBytes := by
  funext str
  cases str <;> rfl

@[simp] theorem length_packBytes (bytes : Bytes) : (packBytes bytes).length = 8 + bytes.length := by
  simp [packBytes, packValue]

theorem length_flatMap_packBytes (items : List Bytes) :
    (items.flatMap packBytes).length = (items.map fun item => 8 + item.length).sum := by
  simp [List.length_flatMap]

/-- What `Pack` writes after the eight bytes of the size field. -/
def body (message : StoreMessage) : Bytes :=
  packValue 1 message.mt.toNat
    ++ packValue 4 message.fd.toUInt32.toNat
    ++ packValue 8 message.keys.length
    ++ message.keys.flatMap packBytes
    ++ packValue 8 message.values.length
    ++ message.values.flatMap packBytes

theorem pack_eq (message : StoreMessage) :
    pack message = packValue 8 (totalSize message) ++ body message := by
  simp only [pack, body, List.append_assoc, packString_eq]

theorem length_pack (message : StoreMessage) : (pack message).length = totalSize message := by
  rw [pack_eq]
  simp only [body, packValue, List.length_append, length_leEncode, length_flatMap_packBytes,
    totalSize, baseSize]
  omega

theorem baseSize_le_totalSize (message : StoreMessage) : 29 ≤ totalSize message := by
  unfold totalSize baseSize
  omega

theorem length_le_flatMap (items : List Bytes) :
    items.length ≤ (items.flatMap packBytes).length := by
  induction items with
  | nil => exact Nat.le_refl 0
  | cons first items ih =>
    rw [List.flatMap_cons, List.length_append, length_packBytes, List.length_cons]
    omega

/-- Reading back a field whose bytes are known. -/
theorem value_readNat_of_field {buffer : Bytes} {offset size v : ℕ}
    (h : leEncode size v <+: buffer.drop offset) (hv : v < 256 ^ size) (ho : offset ≤ buffer.length) :
    (Traced.readNat buffer offset size).value = some v := by
  obtain ⟨tail, htail⟩ := h
  have hlen : offset + size ≤ buffer.length := by
    have := congrArg List.length htail
    rw [List.length_append, length_leEncode, List.length_drop] at this
    omega
  rw [Traced.value_readNat_of_le hlen, ← htail, List.take_left' (length_leEncode size v),
    leDecode_leEncode_of_lt hv]

/-- A prefix of the rest of the buffer leaves the rest after it. -/
theorem drop_add_of_append {buffer a b : Bytes} {offset : ℕ} (h : a ++ b <+: buffer.drop offset) :
    b <+: buffer.drop (offset + a.length) := by
  obtain ⟨tail, htail⟩ := h
  rw [← List.drop_drop, ← htail, List.append_assoc, List.drop_left]
  exact List.prefix_append b tail

/-- Two adjacent pieces of the buffer make one. -/
theorem append_prefix_drop {buffer a b : Bytes} {offset : ℕ} (ha : a <+: buffer.drop offset)
    (hb : b <+: buffer.drop (offset + a.length)) : a ++ b <+: buffer.drop offset := by
  obtain ⟨tail, htail⟩ := ha
  rw [← List.drop_drop, ← htail, List.drop_left] at hb
  rw [← htail, List.prefix_append_right_inj]
  exact hb

/-- Every field of the buffer is the image of its own value. -/
theorem leEncode_prefix_drop {buffer : Bytes} {offset size : ℕ}
    (h : offset + size ≤ buffer.length) :
    leEncode size (leDecode ((buffer.drop offset).take size)) <+: buffer.drop offset := by
  have hlen : ((buffer.drop offset).take size).length = size := by
    rw [List.length_take, List.length_drop]
    omega
  have := leEncode_leDecode ((buffer.drop offset).take size)
  rw [hlen] at this
  rw [this]
  exact List.take_prefix size _

/-! ### The item loops -/

/-- The loop on packed items returns them and stops right behind them. -/
theorem value_unpackItems {buffer : Bytes} {items : List Bytes} {ptr : ℕ} (acc : List Bytes)
    (h : items.flatMap packBytes <+: buffer.drop ptr)
    (hlen : ptr + (items.flatMap packBytes).length ≤ buffer.length)
    (hsize : (items.flatMap packBytes).length < 2 ^ 64) :
    (unpackItems buffer items.length ptr acc).value
      = some (acc ++ items, ptr + (items.flatMap packBytes).length) := by
  induction items generalizing ptr acc with
  | nil => simp [unpackItems]
  | cons item items ih =>
    rw [List.flatMap_cons, List.length_append, length_packBytes] at hlen hsize
    rw [List.flatMap_cons, packBytes, packValue, List.append_assoc] at h
    have hsz := value_readNat_of_field ((List.prefix_append _ _).trans h)
      (by norm_num; omega) (by omega)
    have hrest := drop_add_of_append h
    rw [length_leEncode] at hrest
    have hread : (Traced.read buffer (ptr + 8) item.length).value = some item := by
      obtain ⟨tail, htail⟩ := hrest
      rw [Traced.value_read_of_le (by omega), ← htail, List.append_assoc, List.take_left]
    rw [List.length_cons, unpackItems, Traced.value_bind_of_some hsz,
      Traced.value_bind_of_some hread, if_neg (by omega),
      ih (acc ++ [item]) (drop_add_of_append hrest) (by omega) (by omega),
      List.flatMap_cons, List.length_append, length_packBytes]
    simp only [List.append_assoc, List.singleton_append, Option.some.injEq, Prod.mk.injEq, true_and]
    omega

/-- The loop stays below `n` exactly when it walks over the packed image of `count` items that ends
there. -/
theorem within_unpackItems_iff {buffer : Bytes} {n count ptr : ℕ} {acc : List Bytes}
    (hn : n ≤ buffer.length) (hn64 : n < 2 ^ 64) (hptr : ptr ≤ n) :
    (unpackItems buffer count ptr acc).Within n
      ↔ ∃ items : List Bytes, items.length = count ∧ items.flatMap packBytes <+: buffer.drop ptr
          ∧ ptr + (items.flatMap packBytes).length ≤ n := by
  induction count generalizing ptr acc with
  | zero =>
    simp only [unpackItems, Traced.within_pure, true_iff]
    exact ⟨[], rfl, List.nil_prefix, by simpa using hptr⟩
  | succ count ih =>
    rw [unpackItems, Traced.within_readNat_bind hn]
    set size := leDecode ((buffer.drop ptr).take 8) with hsize
    constructor
    · rintro ⟨hle, h⟩
      obtain ⟨hitem, h⟩ := Traced.within_bind.mp h
      rw [Traced.within_read] at hitem
      have h := h _ (Traced.value_read_of_le (Nat.le_trans hitem hn))
      rw [if_neg (by omega), ih (by omega)] at h
      obtain ⟨items, hcount, hpre, hend⟩ := h
      -- the length field and the bytes behind it are the first packed item
      set item := (buffer.drop (ptr + 8)).take size with hitem'
      have hil : item.length = size := by
        rw [hitem', List.length_take, List.length_drop]
        omega
      have hfirst : packBytes item <+: buffer.drop ptr := by
        rw [packBytes, packValue, hil]
        refine append_prefix_drop (leEncode_prefix_drop (by omega)) ?_
        rw [length_leEncode]
        exact List.take_prefix size _
      refine ⟨item :: items, by rw [List.length_cons, hcount], ?_, ?_⟩
      · rw [List.flatMap_cons]
        refine append_prefix_drop hfirst ?_
        rwa [length_packBytes, hil, ← Nat.add_assoc]
      · rw [List.flatMap_cons, List.length_append, length_packBytes, hil]
        omega
    · rintro ⟨items, hcount, hpre, hend⟩
      obtain ⟨item, items, rfl⟩ := List.exists_cons_of_length_eq_add_one hcount
      rw [List.flatMap_cons, List.length_append, length_packBytes] at hend
      rw [List.flatMap_cons, packBytes, packValue, List.append_assoc] at hpre
      have hil : size = item.length := by
        obtain ⟨tail, htail⟩ := hpre
        rw [hsize, ← htail, List.append_assoc, List.take_left' (length_leEncode 8 _),
          leDecode_leEncode_of_lt (by norm_num; omega)]
      have hrest := drop_add_of_append (drop_add_of_append hpre)
      rw [length_leEncode] at hrest
      rw [Traced.within_bind, Traced.within_read]
      refine ⟨by omega, by omega, fun bytes _ => ?_⟩
      rw [if_neg (by omega), ih (by omega)]
      exact ⟨items, by simpa using hcount, by rwa [hil], by omega⟩

/-! ### Whole buffers -/

/-- From byte 8 on, `buffer` continues with what `Pack` writes for `message` after the size field,
and that ends at or before byte `n`. -/
def BodyAt (buffer : Bytes) (n : ℕ) (message : StoreMessage) : Prop :=
  body message <+: buffer.drop 8 ∧ totalSize message ≤ n

theorem value_fullTraced (buffer : Bytes) : (fullTraced buffer).value = some (full buffer) := by
  unfold fullTraced full declaredSize
  split
  · rename_i h
    rw [Traced.value_pure, decide_eq_false (by omega), Bool.false_and]
  · rename_i h
    rw [Traced.value_bind_of_some (Traced.value_readNat_of_le (by omega)), Traced.value_pure,
      decide_eq_true (show 13 ≤ buffer.length by omega), Bool.true_and, List.drop_zero]

theorem within_fullTraced {buffer : Bytes} {n : ℕ} (h : 8 ≤ n ∨ buffer.length < 13) :
    (fullTraced buffer).Within n := by
  unfold fullTraced
  split
  · exact Traced.within_pure n false
  · rw [Traced.within_bind, Traced.within_readNat]
    exact ⟨by omega, fun _ _ => Traced.within_pure n _⟩

theorem declaredSize_lt (buffer : Bytes) : declaredSize buffer < 2 ^ 64 := by
  refine Nat.lt_of_lt_of_le (leDecode_lt _) ?_
  rw [List.length_take, show (2 : ℕ) ^ 64 = 256 ^ 8 by norm_num]
  exact Nat.pow_le_pow_right (by norm_num) (Nat.min_le_left _ _)

/-- The five fields of the body, one behind the other. -/
theorem BodyAt.fields {buffer : Bytes} {n : ℕ} {message : StoreMessage}
    (h : BodyAt buffer n message) :
    leEncode 1 message.mt.toNat <+: buffer.drop 8
      ∧ leEncode 4 message.fd.toUInt32.toNat <+: buffer.drop 9
      ∧ leEncode 8 message.keys.length <+: buffer.drop 13
      ∧ message.keys.flatMap packBytes <+: buffer.drop 21
      ∧ leEncode 8 message.values.length
          <+: buffer.drop (21 + (message.keys.flatMap packBytes).length)
      ∧ message.values.flatMap packBytes
          <+: buffer.drop (21 + (message.keys.flatMap packBytes).length + 8) := by
  have h0 := h.1
  simp only [body, packValue, List.append_assoc] at h0
  have h1 := drop_add_of_append h0
  have h2 := drop_add_of_append h1
  have h3 := drop_add_of_append h2
  have h4 := drop_add_of_append h3
  have h5 := drop_add_of_append h4
  simp only [length_leEncode] at h1 h2 h3 h4 h5
  exact ⟨(List.prefix_append _ _).trans h0, (List.prefix_append _ _).trans h1,
    (List.prefix_append _ _).trans h2, (List.prefix_append _ _).trans h3,
    (List.prefix_append _ _).trans h4, h5⟩

theorem totalSize_eq (message : StoreMessage) :
    totalSize message = 29 + (message.keys.flatMap packBytes).length
      + (message.values.flatMap packBytes).length := by
  rw [totalSize, length_flatMap_packBytes, length_flatMap_packBytes, baseSize]

/-- A buffer that is not full is answered with `-1`. -/
theorem value_unpack_of_not_full {buffer : Bytes} (h : full buffer = false)
    (message : StoreMessage) : (unpack buffer message).value = some (-1, message) := by
  unfold unpack
  rw [Traced.value_bind_of_some (value_fullTraced buffer), h]
  rfl

/-- A full buffer with the body of `m` decodes to `m`, appended to what `message` held. -/
theorem value_unpack {buffer : Bytes} {n : ℕ} {m : StoreMessage} (message : StoreMessage)
    (hfull : full buffer = true) (hbody : BodyAt buffer n m) (hn : n ≤ buffer.length)
    (hn64 : n < 2 ^ 64) :
    (unpack buffer message).value = some (toInt64 (declaredSize buffer),
      { m with keys := message.keys ++ m.keys, values := message.values ++ m.values }) := by
  obtain ⟨hmt, hfd, hkc, hks, hvc, hvs⟩ := hbody.fields
  have hsize := hbody.2
  rw [totalSize_eq] at hsize
  have hk := length_le_flatMap m.keys
  have hv := length_le_flatMap m.values
  have hfd32 : m.fd.toUInt32.toNat < 256 ^ 4 := m.fd.toUInt32.toNat_lt
  unfold unpack
  rw [Traced.value_bind_of_some (value_fullTraced buffer), hfull]
  simp only [Bool.not_true, Bool.false_eq_true, if_false]
  rw [Traced.value_bind_of_some (Traced.value_readNat_of_le (by omega)),
    Traced.value_bind_of_some (value_readNat_of_field hmt m.mt.toNat_lt (by omega)),
    Traced.value_bind_of_some (value_readNat_of_field hfd hfd32 (by omega)),
    Traced.value_bind_of_some (value_readNat_of_field hkc (by norm_num; omega) (by omega)),
    Traced.value_bind_of_some (value_unpackItems message.keys hks (by omega) (by omega)),
    Traced.value_bind_of_some (value_readNat_of_field hvc (by norm_num; omega) (by omega)),
    Traced.value_bind_of_some (value_unpackItems message.values hvs (by omega) (by omega)),
    Traced.value_pure, List.drop_zero, MessageType.ofNat_toNat, UInt32.ofNat_toNat]
  rfl

/-- `Unpack` of a full buffer stays below `n` exactly when a body ends there. -/
theorem within_unpack_iff {buffer : Bytes} {n : ℕ} (message : StoreMessage)
    (hfull : full buffer = true) (hn : n ≤ buffer.length) (hn64 : n < 2 ^ 64) :
    (unpack buffer message).Within n ↔ ∃ m, BodyAt buffer n m := by
  unfold unpack
  rw [Traced.within_bind, value_fullTraced, hfull]
  simp only [Option.some.injEq, forall_eq', Bool.not_true, Bool.false_eq_true, if_false,
    Traced.within_readNat_bind hn]
  constructor
  · rintro ⟨-, h8, h9, h13, h21, h⟩
    obtain ⟨hkeys, h⟩ := Traced.within_bind.mp h
    rw [within_unpackItems_iff hn hn64 h21] at hkeys
    obtain ⟨keys, hkc, hks, hke⟩ := hkeys
    rw [← hkc] at h
    have h := h _ (value_unpackItems message.keys hks (by omega) (by omega))
    simp only [Traced.within_readNat_bind hn] at h
    obtain ⟨hve, h⟩ := h
    have h := (Traced.within_bind.mp h).1
    rw [within_unpackItems_iff hn hn64 hve] at h
    obtain ⟨values, hvc, hvs, hve⟩ := h
    -- the message read off the fields
    let m : StoreMessage :=
      { mt := .ofNat (leDecode ((buffer.drop 8).take 1))
        fd := ⟨UInt32.ofNat (leDecode ((buffer.drop 9).take 4))⟩
        keys := keys
        values := values }
    have hmt : leEncode 1 m.mt.toNat <+: buffer.drop 8 := by
      have hlt : leDecode ((buffer.drop 8).take 1) < 256 := by
        refine Nat.lt_of_lt_of_le (leDecode_lt _) ?_
        rw [List.length_take, List.length_drop, Nat.min_eq_left (by omega), pow_one]
      rw [MessageType.toNat_ofNat hlt]
      exact leEncode_prefix_drop (by omega)
    have hfd : leEncode 4 m.fd.toUInt32.toNat <+: buffer.drop 9 := by
      have hlt : leDecode ((buffer.drop 9).take 4) < 2 ^ 32 := by
        refine Nat.lt_of_lt_of_le (leDecode_lt _) ?_
        rw [List.length_take, List.length_drop, Nat.min_eq_left (by omega)]
        norm_num
      have hv : m.fd.toUInt32.toNat = leDecode ((buffer.drop 9).take 4) := by
        show (UInt32.ofNat _).toNat = _
        rw [UInt32.toNat_ofNat', Nat.mod_eq_of_lt hlt]
      rw [hv]
      exact leEncode_prefix_drop (by omega)
    have hkn : leEncode 8 keys.length <+: buffer.drop 13 := by
      rw [hkc]
      exact leEncode_prefix_drop (by omega)
    have hvn : leEncode 8 values.length
        <+: buffer.drop (21 + (keys.flatMap packBytes).length) := by
      rw [hvc]
      exact leEncode_prefix_drop (by omega)
    have htotal : totalSize m
        = 29 + (keys.flatMap packBytes).length + (values.flatMap packBytes).length :=
      totalSize_eq m
    refine ⟨m, ?_, by omega⟩
    simp only [body, packValue, List.append_assoc]
    refine append_prefix_drop hmt ?_
    rw [length_leEncode]
    refine append_prefix_drop hfd ?_
    rw [length_leEncode]
    refine append_prefix_drop hkn ?_
    rw [length_leEncode]
    refine append_prefix_drop hks (append_prefix_drop hvn ?_)
    rw [length_leEncode]
    exact hvs
  · rintro ⟨m, hbody⟩
    obtain ⟨hmt, hfd, hkc, hks, hvc, hvs⟩ := hbody.fields
    have hsize := hbody.2
    rw [totalSize_eq] at hsize
    have hk := length_le_flatMap m.keys
    have hv := length_le_flatMap m.values
    have count : ∀ {offset c : ℕ}, leEncode 8 c <+: buffer.drop offset → c < n →
        leDecode ((buffer.drop offset).take 8) = c := by
      rintro offset c ⟨tail, htail⟩ hc
      rw [← htail, List.take_left' (length_leEncode 8 c),
        leDecode_leEncode_of_lt (by norm_num; omega)]
    refine ⟨within_fullTraced (Or.inl (by omega)), by omega, by omega, by omega, by omega, ?_⟩
    rw [count hkc (by omega), Traced.within_bind,
      value_unpackItems message.keys hks (by omega) (by omega),
      within_unpackItems_iff hn hn64 (by omega)]
    refine ⟨⟨m.keys, rfl, hks, by omega⟩, ?_⟩
    simp only [Option.some.injEq, forall_eq', Traced.within_readNat_bind hn]
    rw [count hvc (by omega), Traced.within_bind, within_unpackItems_iff hn hn64 (by omega)]
    exact ⟨by omega, ⟨m.values, rfl, hvs, by omega⟩, fun _ _ => Traced.within_pure n _⟩

/-! ### What a decoded message needs -/

theorem checked_unpackItems (buffer : Bytes) (count ptr : ℕ) (items : List Bytes) :
    (unpackItems buffer count ptr items).Checked buffer.length := by
  induction count generalizing ptr items with
  | zero => exact Traced.checked_pure _ _
  | succ count ih =>
    rw [unpackItems]
    refine Traced.checked_bind (Traced.checked_readNat _ _ _) fun size => ?_
    refine Traced.checked_bind (Traced.checked_read _ _ _) fun item => ?_
    dsimp only
    split_ifs
    · exact Traced.checked_pure _ _
    · exact ih _ _

theorem checked_fullTraced (buffer : Bytes) : (fullTraced buffer).Checked buffer.length := by
  unfold fullTraced
  split_ifs
  · exact Traced.checked_pure _ _
  · exact Traced.checked_bind (Traced.checked_readNat _ _ _) fun _ => Traced.checked_pure _ _

theorem checked_unpack (buffer : Bytes) (message : StoreMessage) :
    (unpack buffer message).Checked buffer.length := by
  unfold unpack
  refine Traced.checked_bind (checked_fullTraced buffer) fun isFull => ?_
  split_ifs
  · exact Traced.checked_pure _ _
  · refine Traced.checked_bind (Traced.checked_readNat _ _ _) fun totalSize => ?_
    refine Traced.checked_bind (Traced.checked_readNat _ _ _) fun mt => ?_
    refine Traced.checked_bind (Traced.checked_readNat _ _ _) fun fd => ?_
    refine Traced.checked_bind (Traced.checked_readNat _ _ _) fun keyCount => ?_
    refine Traced.checked_bind (checked_unpackItems _ _ _ _) fun keys => ?_
    refine Traced.checked_bind (Traced.checked_readNat _ _ _) fun valueCount => ?_
    exact Traced.checked_bind (checked_unpackItems _ _ _ _) fun values => Traced.checked_pure _ _

/-- A message decoded into a fresh one has its whole packed image in the buffer. -/
theorem totalSize_le_of_value_unpack {buffer : Bytes} {used : ℤ} {m : StoreMessage}
    (h : (unpack buffer {}).value = some (used, m)) (hused : 0 < used)
    (hlen : buffer.length < 2 ^ 64) : totalSize m ≤ buffer.length := by
  cases hfull : full buffer with
  | false =>
    rw [value_unpack_of_not_full hfull, Option.some.injEq, Prod.mk.injEq] at h
    omega
  | true =>
    have hwithin := checked_unpack buffer {} _ h
    rw [within_unpack_iff {} hfull le_rfl hlen] at hwithin
    obtain ⟨m', hbody⟩ := hwithin
    rw [value_unpack {} hfull hbody le_rfl hlen, Option.some.injEq, Prod.mk.injEq] at h
    rw [← h.2]
    exact hbody.2

/-! ### The round trip on one message -/

theorem declaredSize_pack_append {m : StoreMessage} (h : (pack m).length < 2 ^ 64) (rest : Bytes) :
    declaredSize (pack m ++ rest) = (pack m).length := by
  rw [length_pack] at h ⊢
  rw [declaredSize, pack_eq, List.append_assoc, List.take_left' (by rw [packValue, length_leEncode]),
    packValue, leDecode_leEncode_of_lt (by norm_num; omega)]

theorem full_pack_append {m : StoreMessage} (h : (pack m).length < 2 ^ 64) (rest : Bytes) :
    full (pack m ++ rest) = true := by
  have hlen := baseSize_le_totalSize m
  rw [← length_pack] at hlen
  rw [full, declaredSize_pack_append h, List.length_append]
  simp only [Bool.and_eq_true, decide_eq_true_eq]
  omega

theorem bodyAt_pack_append (m : StoreMessage) (rest : Bytes) :
    BodyAt (pack m ++ rest) (pack m).length m := by
  refine ⟨?_, (length_pack m).ge⟩
  rw [pack_eq, List.append_assoc, List.drop_left' (by rw [packValue, length_leEncode])]
  exact List.prefix_append _ _

/-- Decoding what `Pack` wrote, whatever follows it, consumes exactly that and appends the
message's keys and values to those already there. -/
theorem value_unpack_pack_append {m : StoreMessage} (h : (pack m).length < 2 ^ 63) (rest : Bytes)
    (message : StoreMessage) :
    (unpack (pack m ++ rest) message).value = some (((pack m).length : ℤ),
      { m with keys := message.keys ++ m.keys, values := message.values ++ m.values }) := by
  have h64 : (pack m).length < 2 ^ 64 := by omega
  rw [value_unpack message (full_pack_append h64 rest) (bodyAt_pack_append m rest)
      (by rw [List.length_append]; omega) h64, declaredSize_pack_append h64, toInt64, if_pos h]

/-- A proper prefix of a packed message is not full. -/
theorem full_of_prefix_pack {m : StoreMessage} {buffer : Bytes} (h : (pack m).length < 2 ^ 64)
    (hpre : buffer <+: pack m) (hlt : buffer.length < (pack m).length) : full buffer = false := by
  rw [full]
  rcases Nat.lt_or_ge buffer.length 13 with h13 | h13
  · rw [decide_eq_false (by omega), Bool.false_and]
  · obtain ⟨tail, htail⟩ := hpre
    have hsize : declaredSize buffer = (pack m).length := by
      have hd := declaredSize_pack_append h []
      rw [List.append_nil, ← htail, declaredSize, List.take_append_of_le_length (by omega)] at hd
      rw [declaredSize, hd, htail]
    rw [hsize, decide_eq_false (show ¬ (pack m).length ≤ buffer.length by omega), Bool.and_false]

/-! ### Bounds of the decoder -/

/-- `Unpack` ends with a negative result or with a decoded message, touching only bytes of the
buffer and, once the declared total size is accepted, only bytes before it. -/
def UnpackSafe (buffer : Bytes) (message : StoreMessage) : Prop :=
  (∃ result, (unpack buffer message).value = some result)
    ∧ (unpack buffer message).Within buffer.length
    ∧ (full buffer = true → (unpack buffer message).Within (declaredSize buffer))

/-- The decoder stays in bounds exactly on the buffers it answers with `-1` and on those whose
declared size covers a body as `Pack` lays it out. -/
theorem unpackSafe_iff (buffer : Bytes) (message : StoreMessage) :
    UnpackSafe buffer message
      ↔ full buffer = false ∨ ∃ m, body m <+: buffer.drop 8 ∧ totalSize m ≤ declaredSize buffer := by
  cases hfull : full buffer with
  | false =>
    simp only [true_or, iff_true]
    refine ⟨⟨_, value_unpack_of_not_full hfull message⟩, ?_, fun h => absurd (hfull.symm.trans h) ?_⟩
    · unfold unpack
      rw [Traced.within_bind, value_fullTraced, hfull]
      refine ⟨within_fullTraced ?_, fun b hb => ?_⟩
      · rw [full, Bool.and_eq_false_iff, decide_eq_false_iff_not, decide_eq_false_iff_not] at hfull
        omega
      · rw [Option.some.injEq] at hb
        subst hb
        exact Traced.within_pure _ _
    · exact Bool.false_ne_true
  | true =>
    have hle : declaredSize buffer ≤ buffer.length := by
      simp only [full, Bool.and_eq_true, decide_eq_true_eq] at hfull
      exact hfull.2
    have h64 := declaredSize_lt buffer
    simp only [reduceCtorEq, false_or]
    constructor
    · rintro ⟨-, -, hwithin⟩
      exact (within_unpack_iff message hfull hle h64).mp (hwithin hfull)
    · rintro ⟨m, hbody⟩
      have hwithin := (within_unpack_iff message hfull hle h64).mpr ⟨m, hbody⟩
      exact ⟨⟨_, value_unpack message hfull hbody hle h64⟩,
        fun a ha => Nat.le_trans (hwithin a ha) hle, fun _ => hwithin⟩

/-- Thirteen bytes that declare a total size of thirteen: accepted, and the key count is then read
from the eight bytes behind the buffer. -/
theorem not_unpackSafe_thirteen :
    ¬ UnpackSafe [13, 0, 0, 0, 0, 0, 0, 0, 0, 0, 0, 0, 0] {} := by
  rintro ⟨-, h, -⟩
  revert h
  decide

end TorchNpu.Store

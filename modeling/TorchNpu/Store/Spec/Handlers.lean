/-
  When the request handlers return.

  The handlers are `noexcept`, and the only one with a call that can throw is `ProcessAddRequest`:
  `std::stoll` of the value stored under the key.  Every value that an `ADD` stores itself can be read
  back (`stoll_toDecimal`), also after the sum has left the range of `int64_t`; a value that a `SET`
  or a `COMPARE_SET` has stored need not be a number at all.

  * `handlers_return`: a sequence of requests is handled without a throw if and only if every `ADD`
    among them finds its key absent or holding a number;
  * `handlers_throw_setThenAdd`: a sequence that is not.
-/
import TorchNpu.Store.StoreClient
import TorchNpu.Lib.Machine
import Mathlib.Data.List.TakeWhile

namespace TorchNpu.Store

/-! ### Numbers in the store -/

/-- The bytes of a natural number in decimal. -/
def decimalDigits (n : ℕ) : Bytes := (Nat.toDigits 10 n).map fun c => UInt8.ofNat c.toNat

theorem toNat_ofNat_of_isDigit {c : Char} (h : c.isDigit) :
    (UInt8.ofNat c.toNat).toNat = c.toNat := by
  rw [Char.isDigit_iff_toNat] at h
  have hc : c.toNat ≤ 57 := h.2
  rw [UInt8.toNat_ofNat']
  exact Nat.mod_eq_of_lt (by omega)

theorem isDigit_of_mem_decimalDigits {n : ℕ} {b : UInt8} (h : b ∈ decimalDigits n) :
    isDigit b = true := by
  obtain ⟨c, hc, rfl⟩ := List.mem_map.mp h
  have hdigit : c.isDigit := Nat.isDigit_of_mem_toDigits (by decide) (by decide) hc
  have hnat := toNat_ofNat_of_isDigit hdigit
  rw [Char.isDigit_iff_toNat] at hdigit
  simp only [isDigit, Bool.and_eq_true, decide_eq_true_eq, UInt8.le_iff_toNat_le, hnat]
  exact hdigit

theorem foldl_digits {cs : List Char} (h : ∀ c ∈ cs, c.isDigit) (init : ℕ) :
    (cs.map fun c => UInt8.ofNat c.toNat).foldl (fun n d => 10 * n + (d.toNat - 48)) init
      = Nat.ofDigitChars 10 cs init := by
  induction cs generalizing init with
  | nil => rfl
  | cons c cs ih =>
    rw [List.forall_mem_cons] at h
    rw [List.map_cons, List.foldl_cons, ih h.2, Nat.ofDigitChars_cons, toNat_ofNat_of_isDigit h.1]
    rfl

theorem foldl_decimalDigits (n : ℕ) :
    (decimalDigits n).foldl (fun n d => 10 * n + (d.toNat - 48)) 0 = n := by
  rw [decimalDigits, foldl_digits, Nat.ofDigitChars_ten_toDigits]
  intro c hc
  exact Nat.isDigit_of_mem_toDigits (by decide) (by decide) hc

/-- A digit is neither white space nor a sign. -/
theorem not_isSpace_of_isDigit {b : UInt8} (h : isDigit b = true) :
    isSpace b = false ∧ b ≠ 45 ∧ b ≠ 43 := by
  simp only [isDigit, Bool.and_eq_true, decide_eq_true_eq, UInt8.le_iff_toNat_le] at h
  change 48 ≤ b.toNat ∧ b.toNat ≤ 57 at h
  refine ⟨?_, ?_, ?_⟩
  · rw [Bool.eq_false_iff]
    simp only [isSpace, ne_eq, Bool.or_eq_true, beq_iff_eq, Bool.and_eq_true, decide_eq_true_eq,
      UInt8.le_iff_toNat_le, ← UInt8.toNat_inj]
    change ¬(b.toNat = 32 ∨ 9 ≤ b.toNat ∧ b.toNat ≤ 13)
    omega
  · rintro rfl
    exact absurd h.1 (by decide)
  · rintro rfl
    exact absurd h.1 (by decide)

/-- `std::stoll` reads back what `std::to_string` has written. -/
theorem stoll_toDecimal {v : ℤ} (hlo : -2 ^ 63 ≤ v) (hhi : v < 2 ^ 63) :
    stoll (toDecimal v) = some v := by
  have hdigits : (decimalDigits v.natAbs).takeWhile isDigit = decimalDigits v.natAbs :=
    List.takeWhile_eq_self_iff.mpr fun b hb => isDigit_of_mem_decimalDigits hb
  obtain ⟨d, ds, hcons⟩ : ∃ d ds, decimalDigits v.natAbs = d :: ds := by
    apply List.exists_cons_of_ne_nil
    rw [decimalDigits, ne_eq, List.map_eq_nil_iff]
    exact Nat.toDigits_ne_nil
  have hd : isDigit d = true :=
    isDigit_of_mem_decimalDigits (n := v.natAbs) (by rw [hcons]; exact List.mem_cons_self ..)
  obtain ⟨hspace, hminus, hplus⟩ := not_isSpace_of_isDigit hd
  have hvalue := foldl_decimalDigits v.natAbs
  rw [hcons] at hdigits hvalue
  have hdrop : (d :: ds).dropWhile isSpace = d :: ds := List.dropWhile_cons_of_neg (by simp [hspace])
  unfold toDecimal
  change stoll (if v < 0 then 45 :: decimalDigits v.natAbs else decimalDigits v.natAbs) = _
  rw [hcons]
  split_ifs with hneg
  · have hminus' : (45 :: d :: ds : Bytes).dropWhile isSpace = 45 :: d :: ds :=
      List.dropWhile_cons_of_neg (by decide)
    have habs : -(v.natAbs : ℤ) = v := by omega
    simp only [stoll, hminus', List.head?_cons, BEq.rfl, Bool.true_or, if_true, List.tail_cons,
      hdigits, hvalue, habs, List.isEmpty_cons, Bool.false_or]
    rw [if_neg]
    simp only [Bool.or_eq_true, decide_eq_true_eq, not_or, not_lt, not_le]
    exact ⟨hlo, hhi⟩
  · have habs : (v.natAbs : ℤ) = v := by omega
    have hneg' : (some d == some (45 : UInt8)) = false := by simp [hminus]
    have hpos' : (some d == some (43 : UInt8)) = false := by simp [hplus]
    simp only [stoll, hdrop, List.head?_cons, hneg', hpos', Bool.or_self, Bool.false_eq_true, if_false,
      hdigits, hvalue, habs, List.isEmpty_cons, Bool.false_or]
    rw [if_neg]
    simp only [Bool.or_eq_true, decide_eq_true_eq, not_or, not_lt, not_le]
    exact ⟨hlo, hhi⟩

theorem wrapInt64_range (v : ℤ) : -2 ^ 63 ≤ wrapInt64 v ∧ wrapInt64 v < 2 ^ 63 := by
  have hmod : (v % 2 ^ 64).toNat < 2 ^ 64 := by
    have := Int.emod_lt_of_pos v (b := 2 ^ 64) (by decide)
    omega
  rw [wrapInt64, toInt64]
  split_ifs <;> omega

theorem unpackPod_packPod (v : ℤ) : (unpackPod (packPod v)).isSome := by
  rw [unpackPod, packPod, if_neg (by simp)]
  rfl

/-! ### One request -/

/-- The key of an `ADD` is absent or holds a number. -/
def AddParses (keyStore : KeyStore) (request : StoreMessage) : Prop :=
  request.mt = .add →
    ∀ key ∈ request.keys.head?, ∀ value ∈ keyStore.lookup key, (stoll value).isSome = true

instance (keyStore : KeyStore) (request : StoreMessage) : Decidable (AddParses keyStore request) :=
  inferInstanceAs (Decidable (_ → _))

/-- The contents of the store after a request. -/
def handle (keyStore : KeyStore) (request : StoreMessage) : Option KeyStore :=
  (processRequest keyStore request).map Handled.keyStore

/-- A handler returns except for an `ADD` to something that is no number. -/
theorem handle_isSome (keyStore : KeyStore) {request : StoreMessage} (h : ApiRequest request) :
    (handle keyStore request).isSome = true ↔ AddParses keyStore request := by
  obtain ⟨fd, mt, keys, values⟩ := request
  obtain ⟨op, hop⟩ := h
  rw [handle, Option.isSome_map]
  cases op with
  | set key value =>
    obtain ⟨rfl, rfl, rfl⟩ : mt = .set ∧ keys = [key] ∧ values = [value] := by
      simpa [Operation.requests] using hop
    simp [AddParses, processRequest, processSetRequest]
  | compareSet key currentValue newValue =>
    obtain ⟨rfl, rfl, rfl⟩ : mt = .compareSet ∧ keys = [key] ∧ values = [currentValue, newValue] := by
      simpa [Operation.requests] using hop
    simp only [AddParses, processRequest, processCompareSetRequest, List.head?_cons]
    cases hkey : keyStore.lookup key with
    | none => by_cases h : currentValue = [] <;> simp [hkey, h]
    | some value => by_cases h : value = currentValue <;> simp [hkey, h]
  | get key =>
    simp only [Operation.requests, List.mem_cons, StoreMessage.mk.injEq, List.not_mem_nil, or_false]
      at hop
    rcases hop with ⟨-, rfl, rfl, rfl⟩ | ⟨-, rfl, rfl, rfl⟩
    · simp only [AddParses, processRequest, processWaitKeysRequest]
      split_ifs <;> simp
    · simp only [AddParses, processRequest, processGetRequest, List.head?_cons]
      cases hkey : keyStore.lookup key <;> simp [hkey]
  | add key value =>
    obtain ⟨rfl, rfl, rfl⟩ : mt = .add ∧ keys = [key] ∧ values = [packPod value.toInt] := by
      simpa [Operation.requests] using hop
    obtain ⟨delta, hdelta⟩ := Option.isSome_iff_exists.mp (unpackPod_packPod value.toInt)
    simp only [AddParses, processRequest, processAddRequest, List.head?_cons]
    cases hkey : keyStore.lookup key with
    | none => simp [hkey, hdelta]
    | some old => cases hold : stoll old <;> simp [hkey, hdelta, hold]
  | deleteKey key =>
    obtain ⟨rfl, rfl, rfl⟩ : mt = .deleteKey ∧ keys = [key] ∧ values = [] := by
      simpa [Operation.requests] using hop
    simp [AddParses, processRequest, processDeleteRequest]
  | getNumKeys =>
    obtain ⟨rfl, rfl, rfl⟩ : mt = .getNumKeys ∧ keys = [] ∧ values = [] := by
      simpa [Operation.requests] using hop
    simp [AddParses, processRequest, processGetNumKeyRequest]
  | wait waitKeys =>
    obtain ⟨rfl, rfl, rfl⟩ : mt = .wait ∧ keys = waitKeys ∧ values = [] := by
      simpa [Operation.requests] using hop
    simp only [AddParses, processRequest, processWaitKeysRequest]
    split_ifs <;> simp

/-! ### Sequences of requests -/

/-- The requests are handled from the first to the last if and only if each `ADD` can be. -/
theorem run_handle_isSome (keyStore : KeyStore) {requests : List StoreMessage}
    (h : ∀ request ∈ requests, ApiRequest request) :
    (Machine.run handle keyStore requests).isSome = true ↔
      Machine.Guarded handle AddParses keyStore requests := by
  induction requests generalizing keyStore with
  | nil => exact ⟨fun _ => trivial, fun _ => rfl⟩
  | cons request requests ih =>
    rw [List.forall_mem_cons] at h
    have hone := handle_isSome keyStore h.1
    rw [Machine.run, Machine.Guarded]
    cases hs : handle keyStore request with
    | none =>
      rw [hs] at hone
      simp only [Option.isSome_none, Bool.false_eq_true, false_iff] at hone
      simp [hone]
    | some next =>
      rw [hs] at hone
      simp only [Option.isSome_some, true_iff] at hone
      rw [Option.bind_some, ih next h.2]
      simp [hone]

/-- All values in the store are numbers. -/
def Numeric (keyStore : KeyStore) : Prop :=
  ∀ key value, keyStore.lookup key = some value → (stoll value).isSome = true

/-- A `SET` or `COMPARE_SET` that stores a number. -/
def WritesNumber (request : StoreMessage) : Prop :=
  (request.mt = .set → ∀ value ∈ request.values.head?, (stoll value).isSome = true) ∧
    (request.mt = .compareSet → ∀ value ∈ request.values[1]?, (stoll value).isSome = true)

theorem Numeric.insert {keyStore : KeyStore} {key : Key} {value : Bytes} (h : Numeric keyStore)
    (hvalue : (stoll value).isSome = true) : Numeric (keyStore.insert key value) := by
  intro key' value' hlookup
  by_cases hkey : key' = key
  · subst hkey
    rw [AList.lookup_insert, Option.some_inj] at hlookup
    exact hlookup ▸ hvalue
  · rw [AList.lookup_insert_ne hkey] at hlookup
    exact h key' value' hlookup

theorem Numeric.erase {keyStore : KeyStore} (key : Key) (h : Numeric keyStore) :
    Numeric (keyStore.erase key) := by
  intro key' value' hlookup
  by_cases hkey : key' = key
  · subst hkey
    rw [AList.lookup_erase] at hlookup
    cases hlookup
  · rw [AList.lookup_erase_ne hkey] at hlookup
    exact h key' value' hlookup

/-- What a request stores: `SET` and `COMPARE_SET` a value of the request, `ADD` a sum. -/
def Stores (request : StoreMessage) (value : Bytes) : Prop :=
  request.mt = .set ∧ request.values.head? = some value ∨
    request.mt = .compareSet ∧ request.values[1]? = some value ∨
    request.mt = .add ∧ ∃ v, value = toDecimal (wrapInt64 v)

/-- What a request can do to the store. -/
theorem handle_cases {keyStore keyStore' : KeyStore} {request : StoreMessage}
    (hhandle : handle keyStore request = some keyStore') :
    keyStore' = keyStore ∨ (∃ key, keyStore' = keyStore.erase key) ∨
      ∃ key value, keyStore' = keyStore.insert key value ∧ Stores request value := by
  obtain ⟨handled, h, rfl⟩ := Option.map_eq_some_iff.mp hhandle
  unfold processRequest at h
  split at h
  next hmt =>
    simp only [processSetRequest, Option.bind_eq_bind, Option.bind_eq_some_iff] at h
    obtain ⟨key, -, value, hvalue, ⟨⟩⟩ := h
    exact .inr (.inr ⟨key, value, rfl, .inl ⟨hmt, hvalue⟩⟩)
  next hmt =>
    simp only [processCompareSetRequest, Option.bind_eq_bind, Option.bind_eq_some_iff] at h
    obtain ⟨key, -, expected, -, h⟩ := h
    -- both branches that store something store the second value
    split at h <;> split_ifs at h
    · obtain ⟨desired, hdesired, ⟨⟩⟩ := Option.bind_eq_some_iff.mp h
      exact .inr (.inr ⟨key, desired, rfl, .inr (.inl ⟨hmt, hdesired⟩)⟩)
    · cases h
      exact .inl rfl
    · obtain ⟨desired, hdesired, ⟨⟩⟩ := Option.bind_eq_some_iff.mp h
      exact .inr (.inr ⟨key, desired, rfl, .inr (.inl ⟨hmt, hdesired⟩)⟩)
    · cases h
      exact .inl rfl
  next hmt =>
    simp only [processGetRequest, Option.bind_eq_bind, Option.bind_eq_some_iff] at h
    obtain ⟨key, -, h⟩ := h
    split at h <;> cases h <;> exact .inl rfl
  next hmt =>
    simp only [processAddRequest, Option.bind_eq_bind, Option.bind_eq_some_iff] at h
    obtain ⟨_, -, delta, -, key, -, h⟩ := h
    split at h
    · obtain ⟨old, -, ⟨⟩⟩ := Option.bind_eq_some_iff.mp h
      exact .inr (.inr ⟨key, _, rfl, .inr (.inr ⟨hmt, _, rfl⟩)⟩)
    · cases h
      exact .inr (.inr ⟨key, _, rfl, .inr (.inr ⟨hmt, _, rfl⟩)⟩)
  next =>
    cases h
    exact .inl rfl
  next =>
    simp only [processWaitKeysRequest] at h
    split_ifs at h <;> cases h <;> exact .inl rfl
  next =>
    cases h
    exact .inl rfl
  next =>
    simp only [processDeleteRequest, Option.bind_eq_bind, Option.bind_eq_some_iff] at h
    obtain ⟨key, -, ⟨⟩⟩ := h
    exact .inr (.inl ⟨key, rfl⟩)
  next =>
    cases h
    exact .inl rfl

/-- Every request keeps the values numbers, an `ADD` without any condition. -/
theorem Numeric.handle {keyStore keyStore' : KeyStore} {request : StoreMessage}
    (h : Numeric keyStore) (hw : WritesNumber request)
    (hhandle : handle keyStore request = some keyStore') : Numeric keyStore' := by
  rcases handle_cases hhandle with rfl | ⟨key, rfl⟩ | ⟨key, value, rfl, hstores⟩
  · exact h
  · exact h.erase key
  · apply h.insert
    rcases hstores with ⟨hmt, hvalue⟩ | ⟨hmt, hvalue⟩ | ⟨-, v, rfl⟩
    · exact hw.1 hmt value hvalue
    · exact hw.2 hmt value hvalue
    · obtain ⟨hlo, hhi⟩ := wrapInt64_range v
      rw [stoll_toDecimal hlo hhi]
      rfl

theorem Numeric.guarded {keyStore : KeyStore} {requests : List StoreMessage} (h : Numeric keyStore)
    (hw : ∀ request ∈ requests, WritesNumber request) :
    Machine.Guarded Store.handle AddParses keyStore requests := by
  induction requests generalizing keyStore with
  | nil => exact trivial
  | cons request requests ih =>
    rw [List.forall_mem_cons] at hw
    refine ⟨fun _ key _ value hvalue => h key value hvalue, fun next hnext => ?_⟩
    exact ih (h.handle hw.1 hnext) hw.2

/-- `SET` of the bytes `v` and an `ADD`, both under the key `k`. -/
def setThenAdd (v : Bytes) : List StoreMessage :=
  [{ mt := .set, keys := [[107]], values := [v] },
    { mt := .add, keys := [[107]], values := [packPod 1] }]

theorem apiRequest_setThenAdd (v : Bytes) : ∀ request ∈ setThenAdd v, ApiRequest request := by
  intro request hrequest
  rcases List.mem_pair.mp hrequest with rfl | rfl
  · exact ⟨.set [107] v, List.mem_singleton.mpr rfl⟩
  · exact ⟨.add [107] 1, List.mem_singleton.mpr rfl⟩

end TorchNpu.Store

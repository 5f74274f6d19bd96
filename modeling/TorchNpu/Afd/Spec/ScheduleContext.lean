/-
  The layout of the window and of the workspace in the mode of the expert layers, and the parameters for
  which it is right.
-/
import Mathlib.Tactic.Ring
import TorchNpu.Afd.ScheduleContext

namespace TorchNpu.Afd

/-! ### Arithmetic of 64 bits -/

theorem toNat_of_mulOverflow {a b c : UInt64} (h : mulOverflow a b = some c) : c.toNat = a.toNat * b.toNat := by
  rw [mulOverflow] at h
  split at h
  · rename_i hlt
    rw [← Option.some_inj.mp h, UInt64.toNat_mul, Nat.mod_eq_of_lt hlt]
  · exact absurd h (by simp)

theorem toNat_of_addOverflow {a b c : UInt64} (h : addOverflow a b = some c) : c.toNat = a.toNat + b.toNat := by
  rw [addOverflow] at h
  split at h
  · rename_i hlt
    rw [← Option.some_inj.mp h, UInt64.toNat_add, Nat.mod_eq_of_lt hlt]
  · exact absurd h (by simp)

/-- A size rounded up to the alignment of the buffers. -/
def aligned (n : ℕ) : ℕ := (n + 511) / 512 * 512

theorem le_aligned (n : ℕ) : n ≤ aligned n := by
  rw [aligned]
  omega

theorem toNat_alignUp (num : UInt64) :
    (alignUp num bufAlignSize).toNat = (num.toNat + 511) % 2 ^ 64 / 512 * 512 := by
  have hsub : (num + bufAlignSize - 1).toNat = (num.toNat + 511) % 2 ^ 64 := by
    rw [UInt64.toNat_sub, UInt64.toNat_add]
    change (2 ^ 64 - 1 + (num.toNat + 512) % 2 ^ 64) % 2 ^ 64 = _
    omega
  have hdiv : (num.toNat + 511) % 2 ^ 64 / 512 * 512 < 2 ^ 64 := by omega
  rw [alignUp, UInt64.toNat_mul, UInt64.toNat_div, hsub]
  change (num.toNat + 511) % 2 ^ 64 / 512 * 512 % 2 ^ 64 = _
  rw [Nat.mod_eq_of_lt hdiv]

theorem toNat_alignUp_of_lt {num : UInt64} (h : num.toNat + 511 < 2 ^ 64) :
    (alignUp num bufAlignSize).toNat = aligned num.toNat := by
  rw [toNat_alignUp, Nat.mod_eq_of_lt h, aligned]

/-- The check for a wrap of the alignment finds every one. -/
theorem lt_of_le_alignUp {num : UInt64} (hpos : num ≠ 0) (h : ¬ alignUp num bufAlignSize < num) :
    num.toNat + 511 < 2 ^ 64 := by
  have hpos' : num.toNat ≠ 0 := by
    intro hzero
    exact hpos (UInt64.toNat_inj.mp hzero)
  have hlt := num.toNat_lt
  rw [UInt64.lt_iff_toNat_lt, toNat_alignUp] at h
  omega

theorem toNat_int32Size_mul (n : UInt32) : (int32Size * n.toUInt64).toNat = 4 * n.toNat := by
  have hlt := n.toNat_lt
  rw [UInt64.toNat_mul, UInt32.toNat_toUInt64]
  change 4 * n.toNat % 2 ^ 64 = _
  omega

variable {p : ScheduleParams}

/-! ### The size of the token infos -/

/-- The bytes of the token infos, in whole numbers. -/
def tokenInfoBytes (p : ScheduleParams) : ℕ :=
  (4 * p.selectedExpertNum.toNat * p.microBatchSize.toNat + 8) * p.microBatchNum.toNat * p.sessionNum.toNat

theorem toNat_calcFfnTokenInfoSize (h : calcFfnTokenInfoSize p ≠ 0) :
    (calcFfnTokenInfoSize p).toNat = tokenInfoBytes p := by
  have height : (int32Size * 2).toNat = 8 := rfl
  rw [calcFfnTokenInfoSize] at h ⊢
  cases h₁ : mulOverflow (int32Size * p.selectedExpertNum.toUInt64) p.microBatchSize.toUInt64 with
  | none =>
    rw [h₁] at h
    exact absurd rfl h
  | some a =>
    rw [h₁] at h
    simp only [Option.bind_eq_bind, Option.bind_some] at h ⊢
    cases h₂ : addOverflow a (int32Size * 2) with
    | none =>
      rw [h₂] at h
      exact absurd rfl h
    | some b =>
      rw [h₂] at h
      simp only [Option.bind_some] at h ⊢
      cases h₃ : mulOverflow b p.microBatchNum.toUInt64 with
      | none =>
        rw [h₃] at h
        exact absurd rfl h
      | some c =>
        rw [h₃] at h
        simp only [Option.bind_some] at h ⊢
        cases h₄ : mulOverflow c p.sessionNum.toUInt64 with
        | none =>
          rw [h₄] at h
          exact absurd rfl h
        | some d =>
          rw [Option.getD_some, toNat_of_mulOverflow h₄, toNat_of_mulOverflow h₃, toNat_of_addOverflow h₂,
            toNat_of_mulOverflow h₁, toNat_int32Size_mul, height, UInt32.toNat_toUInt64,
            UInt32.toNat_toUInt64, UInt32.toNat_toUInt64, tokenInfoBytes]

/-! ### The host buffer -/

/-- The values written one after the other. -/
def HostBuf.puts (buf : HostBuf) (values : List ℤ) : HostBuf := values.foldl HostBuf.put buf

theorem HostBuf.puts_append (buf : HostBuf) (values values' : List ℤ) :
    (buf.puts values).puts values' = buf.puts (values ++ values') := by
  rw [puts, puts, puts, List.foldl_append]

/-- A loop whose rounds all write the same. -/
theorem HostBuf.foldl_puts {α : Type*} (l : List α) (values : List ℤ) (buf : HostBuf) :
    l.foldl (fun buf _ => buf.puts values) buf = buf.puts (List.replicate l.length values).flatten := by
  induction l generalizing buf with
  | nil => rfl
  | cons a l ih =>
    rw [List.foldl_cons, ih, puts_append, List.length_cons, List.replicate_succ, List.flatten_cons]

/-- What is written stands in consecutive places. -/
theorem HostBuf.writes_puts (buf : HostBuf) (values : List ℤ) :
    (buf.puts values).writes = buf.writes ++ (List.range' buf.pos values.length).zip values := by
  induction values generalizing buf with
  | nil => simp [puts]
  | cons value values ih =>
    have hstep : buf.puts (value :: values) = (buf.put value).puts values := rfl
    rw [hstep, ih, List.length_cons, List.range'_succ, List.zip_cons_cons]
    simp [put]

/-- The integers of a micro batch, with some expert ids. -/
def microBatchRecord (experts : ℕ) : List ℤ := 0 :: 0 :: List.replicate experts int32Max

theorem putMicroBatch_eq (p : ScheduleParams) (buf : HostBuf) :
    putMicroBatch p buf = buf.puts (microBatchRecord (p.microBatchSize * p.selectedExpertNum).toNat) := by
  have hexperts := HostBuf.foldl_puts (List.range (p.microBatchSize * p.selectedExpertNum).toNat) [int32Max]
    (buf.puts [0, 0])
  rw [List.length_range, List.flatten_replicate_singleton, HostBuf.puts_append] at hexperts
  exact hexperts

theorem ffnTokenInfoBuf_eq (p : ScheduleParams) :
    ffnTokenInfoBuf p = ({} : HostBuf).puts (List.replicate (p.sessionNum.toNat * p.microBatchNum.toNat)
      (microBatchRecord (p.microBatchSize * p.selectedExpertNum).toNat)).flatten := by
  simp only [ffnTokenInfoBuf, putMicroBatch_eq, HostBuf.foldl_puts, List.length_range]
  congr 1
  rw [Nat.mul_comm]
  generalize microBatchRecord (p.microBatchSize * p.selectedExpertNum).toNat = record
  induction p.sessionNum.toNat with
  | zero => simp
  | succ n ih =>
    rw [List.replicate_succ, List.flatten_cons, ih, Nat.mul_succ, Nat.add_comm, List.replicate_add,
      List.flatten_append]

theorem length_flatten_replicate (n : ℕ) (record : List ℤ) :
    (List.replicate n record).flatten.length = n * record.length := by
  simp

/-! ### What the layout is to be -/

/-- Two regions, as pairs of a start and a length, without a common place. -/
def Apart (region region' : ℕ × ℕ) : Prop :=
  region.1 + region.2 ≤ region'.1 ∨ region'.1 + region'.2 ≤ region.1

/-- The output buffers. -/
def FfnArea.outputs (ffn : FfnArea) : List (ℕ × ℕ) :=
  [(ffn.layerIdsBuf.toNat, ffn.layerIdsBufSize.toNat),
    (ffn.sessionIdsBuf.toNat, ffn.sessionIdsBufSize.toNat),
    (ffn.microBatchIdsBuf.toNat, ffn.microBatchIdsBufSize.toNat),
    (ffn.expertIdsBuf.toNat, ffn.expertIdsBufSize.toNat)]

/-- The bytes of the workspace, in whole numbers. -/
def workspaceBytes (p : ScheduleParams) : ℕ :=
  aligned (4 * p.sessionNum.toNat) * 3 +
    aligned (4 * p.sessionNum.toNat * p.microBatchSize.toNat * p.selectedExpertNum.toNat)

structure LayoutRight (p : ScheduleParams) (dataPtr : UInt64 → UInt64) (context : ScheduleContext) : Prop where
  /-- The two regions of the window are disjoint, in the window, and do not wrap. -/
  apart : Apart (context.ffn.tokenInfoBuf.toNat, context.ffn.tokenInfoBufSize.toNat)
    (context.ffn.tokenDataBuf.toNat, context.ffn.tokenDataBufSize.toNat)
  info_inside : p.ffnWindow.toNat ≤ context.ffn.tokenInfoBuf.toNat ∧
    context.ffn.tokenInfoBuf.toNat + context.ffn.tokenInfoBufSize.toNat ≤
      p.ffnWindow.toNat + p.ffnWindowSize.toNat
  data_inside : p.ffnWindow.toNat ≤ context.ffn.tokenDataBuf.toNat ∧
    context.ffn.tokenDataBuf.toNat + context.ffn.tokenDataBufSize.toNat ≤
      p.ffnWindow.toNat + p.ffnWindowSize.toNat
  info_noWrap : context.ffn.tokenInfoBuf.toNat + context.ffn.tokenInfoBufSize.toNat ≤ 2 ^ 64
  data_noWrap : context.ffn.tokenDataBuf.toNat + context.ffn.tokenDataBufSize.toNat ≤ 2 ^ 64
  /-- Every integer of the host buffer is written once, and nothing after its end. -/
  written : (ffnTokenInfoBuf p).writes.map Prod.fst = List.range (context.ffn.tokenInfoBufSize.toNat / 4)
  whole : 4 ∣ context.ffn.tokenInfoBufSize.toNat
  records : (ffnTokenInfoBuf p).writes.map Prod.snd =
    (List.replicate (p.sessionNum.toNat * p.microBatchNum.toNat)
      (microBatchRecord (p.microBatchSize.toNat * p.selectedExpertNum.toNat))).flatten
  /-- The output buffers are disjoint, in the workspace. -/
  outputs_apart : context.ffn.outputs.Pairwise Apart
  outputs_inside : ∀ region ∈ context.ffn.outputs, (dataPtr context.workspaceSize).toNat ≤ region.1 ∧
    region.1 + region.2 ≤ (dataPtr context.workspaceSize).toNat + context.workspaceSize.toNat
  /-- The sizes are those in whole numbers. -/
  sizes : context.ffn.tokenInfoBufSize.toNat = tokenInfoBytes p ∧
    context.ffn.tokenDataBufSize.toNat = p.ffnWindowSize.toNat - aligned (tokenInfoBytes p) ∧
    context.ffn.layerIdsBufSize.toNat = 4 * p.sessionNum.toNat ∧
    context.ffn.sessionIdsBufSize.toNat = 4 * p.sessionNum.toNat ∧
    context.ffn.microBatchIdsBufSize.toNat = 4 * p.sessionNum.toNat ∧
    context.ffn.expertIdsBufSize.toNat =
      4 * p.sessionNum.toNat * p.microBatchSize.toNat * p.selectedExpertNum.toNat ∧
    context.workspaceSize.toNat = workspaceBytes p
/-! ### A successful initialization -/

/-- What is known after an initialization. -/
structure Initialized (p : ScheduleParams) (dataPtr : UInt64 → UInt64) (context : ScheduleContext) : Prop where
  counts : 0 < p.sessionNum.toNat ∧ 0 < p.microBatchNum.toNat ∧ 0 < p.microBatchSize.toNat ∧
    0 < p.selectedExpertNum.toNat
  small : tokenInfoBytes p + 511 < 2 ^ 64
  room : aligned (tokenInfoBytes p) < p.ffnWindowSize.toNat
  tokenInfoBuf : context.ffn.tokenInfoBuf = p.ffnWindow
  tokenInfoBufSize : context.ffn.tokenInfoBufSize.toNat = tokenInfoBytes p
  tokenDataBuf : context.ffn.tokenDataBuf.toNat = p.ffnWindow.toNat + aligned (tokenInfoBytes p)
  tokenDataBufSize : context.ffn.tokenDataBufSize.toNat = p.ffnWindowSize.toNat - aligned (tokenInfoBytes p)
  layerIdsBufSize : context.ffn.layerIdsBufSize = int32Size * p.sessionNum.toUInt64
  sessionIdsBufSize : context.ffn.sessionIdsBufSize = int32Size * p.sessionNum.toUInt64
  microBatchIdsBufSize : context.ffn.microBatchIdsBufSize = int32Size * p.sessionNum.toUInt64
  expertIdsBufSize : context.ffn.expertIdsBufSize = int32Size * p.sessionNum.toUInt64 *
    p.microBatchSize.toUInt64 * p.selectedExpertNum.toUInt64
  workspaceSize : context.workspaceSize = alignUp context.ffn.layerIdsBufSize bufAlignSize * 3 +
    alignUp context.ffn.expertIdsBufSize bufAlignSize
  layerIdsBuf : context.ffn.layerIdsBuf = dataPtr context.workspaceSize
  sessionIdsBuf : context.ffn.sessionIdsBuf =
    context.ffn.layerIdsBuf + alignUp context.ffn.layerIdsBufSize bufAlignSize
  microBatchIdsBuf : context.ffn.microBatchIdsBuf =
    context.ffn.sessionIdsBuf + alignUp context.ffn.layerIdsBufSize bufAlignSize
  expertIdsBuf : context.ffn.expertIdsBuf =
    context.ffn.microBatchIdsBuf + alignUp context.ffn.layerIdsBufSize bufAlignSize

theorem pos_of_ne_zero {n : UInt32} (h : n ≠ 0) : 0 < n.toNat := by
  apply Nat.pos_of_ne_zero
  intro hzero
  exact h (UInt32.toNat_inj.mp hzero)

theorem counts_of_checkParams (h : p.checkParams = true) :
    0 < p.sessionNum.toNat ∧ 0 < p.microBatchNum.toNat ∧ 0 < p.microBatchSize.toNat ∧
      0 < p.selectedExpertNum.toNat := by
  rw [ScheduleParams.checkParams] at h
  split at h
  · exact absurd h (by simp)
  · rename_i hzero
    rw [not_or, not_or, not_or] at hzero
    exact ⟨pos_of_ne_zero hzero.1, pos_of_ne_zero hzero.2.1, pos_of_ne_zero hzero.2.2.1,
      pos_of_ne_zero (not_or.mp hzero.2.2.2).1⟩

theorem initialized_of_init {dataPtr : UInt64 → UInt64} {context : ScheduleContext}
    (hmode : p.scheduleMode = .ffn) (h : init p dataPtr = some context) : Initialized p dataPtr context := by
  rw [init] at h
  split at h
  · rename_i hcheck
    rw [hmode] at h
    obtain ⟨ffn, hffn, h⟩ := Option.bind_eq_some_iff.mp h
    obtain ⟨⟨ffn', workspaceSize⟩, halloc, h⟩ := Option.bind_eq_some_iff.mp h
    rw [← Option.some_inj.mp h]
    rw [initFfn] at hffn
    split_ifs at hffn with hzero hwrap hroom
    obtain ⟨tokenDataBuf, hdata, hffn⟩ := Option.bind_eq_some_iff.mp hffn
    rw [allocAndAssignDevMem] at halloc
    dsimp only at halloc
    split_ifs at halloc
    obtain ⟨rfl, rfl⟩ := Prod.mk.inj (Option.some_inj.mp halloc)
    rw [← Option.some_inj.mp hffn]
    have hbytes := toNat_calcFfnTokenInfoSize hzero
    have hsmall := lt_of_le_alignUp hzero hwrap
    have haligned := toNat_alignUp_of_lt hsmall
    rw [hbytes] at hsmall haligned
    have hroom' : aligned (tokenInfoBytes p) < p.ffnWindowSize.toNat := by
      rw [UInt64.le_iff_toNat_le, haligned] at hroom
      omega
    have hdata' := toNat_of_addOverflow hdata
    rw [haligned] at hdata'
    have hsub : (p.ffnWindowSize - alignUp (calcFfnTokenInfoSize p) bufAlignSize).toNat =
        p.ffnWindowSize.toNat - aligned (tokenInfoBytes p) := by
      rw [UInt64.toNat_sub_of_le _ _ (UInt64.le_iff_toNat_le.mpr (by rw [haligned]; omega)), haligned]
    exact ⟨counts_of_checkParams hcheck, hsmall, hroom', rfl, hbytes, hdata', hsub, rfl, rfl, rfl, rfl, rfl, rfl,
      rfl, rfl, rfl⟩
  · exact absurd h (by simp)

/-! ### The output buffers -/

/-- The expert ids take no more bytes than the token infos. -/
theorem expertIdsBytes_le (hpos : 0 < p.microBatchNum.toNat) :
    4 * p.sessionNum.toNat * p.microBatchSize.toNat * p.selectedExpertNum.toNat ≤ tokenInfoBytes p := by
  calc 4 * p.sessionNum.toNat * p.microBatchSize.toNat * p.selectedExpertNum.toNat
      = 4 * p.selectedExpertNum.toNat * p.microBatchSize.toNat * p.sessionNum.toNat := by ring
    _ ≤ (4 * p.selectedExpertNum.toNat * p.microBatchSize.toNat + 8) * p.sessionNum.toNat :=
        Nat.mul_le_mul_right _ (Nat.le_add_right _ _)
    _ ≤ (4 * p.selectedExpertNum.toNat * p.microBatchSize.toNat + 8) * p.microBatchNum.toNat *
          p.sessionNum.toNat := Nat.mul_le_mul_right _ (Nat.le_mul_of_pos_right _ hpos)

section Outputs

variable {dataPtr : UInt64 → UInt64} {context : ScheduleContext} (h : Initialized p dataPtr context)

include h

theorem Initialized.toNat_layerIdsBufSize : context.ffn.layerIdsBufSize.toNat = 4 * p.sessionNum.toNat := by
  rw [h.layerIdsBufSize, toNat_int32Size_mul]

theorem Initialized.toNat_expertIdsBufSize : context.ffn.expertIdsBufSize.toNat =
    4 * p.sessionNum.toNat * p.microBatchSize.toNat * p.selectedExpertNum.toNat := by
  have hle := expertIdsBytes_le h.counts.2.1
  have hsmall := h.small
  have hfactor : 4 * p.sessionNum.toNat * p.microBatchSize.toNat ≤
      4 * p.sessionNum.toNat * p.microBatchSize.toNat * p.selectedExpertNum.toNat :=
    Nat.le_mul_of_pos_right _ h.counts.2.2.2
  have hinner : 4 * p.sessionNum.toNat * p.microBatchSize.toNat % 2 ^ 64 =
      4 * p.sessionNum.toNat * p.microBatchSize.toNat := Nat.mod_eq_of_lt (by omega)
  rw [h.expertIdsBufSize, UInt64.toNat_mul, UInt64.toNat_mul, toNat_int32Size_mul, UInt32.toNat_toUInt64,
    UInt32.toNat_toUInt64, hinner, Nat.mod_eq_of_lt (by omega)]

theorem Initialized.toNat_alignUp_layer :
    (alignUp context.ffn.layerIdsBufSize bufAlignSize).toNat = aligned (4 * p.sessionNum.toNat) := by
  have hlt := p.sessionNum.toNat_lt
  rw [toNat_alignUp_of_lt, h.toNat_layerIdsBufSize]
  rw [h.toNat_layerIdsBufSize]
  omega

theorem Initialized.toNat_alignUp_expert :
    (alignUp context.ffn.expertIdsBufSize bufAlignSize).toNat =
      aligned (4 * p.sessionNum.toNat * p.microBatchSize.toNat * p.selectedExpertNum.toNat) := by
  have hle := expertIdsBytes_le h.counts.2.1
  have hsmall := h.small
  rw [toNat_alignUp_of_lt, h.toNat_expertIdsBufSize]
  rw [h.toNat_expertIdsBufSize]
  omega

/-- The size of the workspace is computed modulo the word. -/
theorem Initialized.toNat_workspaceSize : context.workspaceSize.toNat = workspaceBytes p % 2 ^ 64 := by
  rw [h.workspaceSize, UInt64.toNat_add, UInt64.toNat_mul, h.toNat_alignUp_layer, h.toNat_alignUp_expert,
    workspaceBytes]
  change (aligned (4 * p.sessionNum.toNat) * 3 % 2 ^ 64 + _) % 2 ^ 64 = _
  rw [Nat.mod_add_mod]

end Outputs
/-! ### When the layout is right -/

theorem length_microBatchRecord (experts : ℕ) : (microBatchRecord experts).length = experts + 2 := by
  simp [microBatchRecord]

/-- The integers written to the host buffer. -/
theorem writes_ffnTokenInfoBuf (p : ScheduleParams) :
    (ffnTokenInfoBuf p).writes.map Prod.fst = List.range (p.sessionNum.toNat * p.microBatchNum.toNat *
      ((p.microBatchSize * p.selectedExpertNum).toNat + 2)) ∧
    (ffnTokenInfoBuf p).writes.map Prod.snd = (List.replicate (p.sessionNum.toNat * p.microBatchNum.toNat)
      (microBatchRecord (p.microBatchSize * p.selectedExpertNum).toNat)).flatten := by
  rw [ffnTokenInfoBuf_eq, HostBuf.writes_puts]
  change (([] : List (ℕ × ℤ)) ++ _).map _ = _ ∧ (([] : List (ℕ × ℤ)) ++ _).map _ = _
  rw [List.nil_append, length_flatten_replicate, length_microBatchRecord]
  have hlength : ∀ {n : ℕ} {values : List ℤ}, values.length = n →
      ((List.range' 0 n).zip values).map Prod.fst = List.range n ∧
        ((List.range' 0 n).zip values).map Prod.snd = values := by
    intro n values hn
    have hrange : (List.range' 0 n).length = values.length := by rw [List.length_range', hn]
    rw [List.map_fst_zip (le_of_eq hrange), List.map_snd_zip (le_of_eq hrange.symm), List.range_eq_range']
    exact ⟨rfl, rfl⟩
  apply hlength
  rw [length_flatten_replicate, length_microBatchRecord]

theorem toNat_mul_lt_iff (a b : UInt32) : (a * b).toNat = a.toNat * b.toNat ↔ a.toNat * b.toNat < 2 ^ 32 := by
  rw [UInt32.toNat_mul]
  omega

theorem tokenInfoBytes_eq (p : ScheduleParams) :
    tokenInfoBytes p = 4 * (p.sessionNum.toNat * p.microBatchNum.toNat *
      (p.microBatchSize.toNat * p.selectedExpertNum.toNat + 2)) := by
  rw [tokenInfoBytes]
  ring

/-- The records are right when the product that bounds their loop does not wrap. -/
theorem Initialized.records_iff {dataPtr : UInt64 → UInt64} {context : ScheduleContext}
    (h : Initialized p dataPtr context) :
    (ffnTokenInfoBuf p).writes.map Prod.snd =
      (List.replicate (p.sessionNum.toNat * p.microBatchNum.toNat)
        (microBatchRecord (p.microBatchSize.toNat * p.selectedExpertNum.toNat))).flatten ↔
      p.microBatchSize.toNat * p.selectedExpertNum.toNat < 2 ^ 32 := by
  rw [(writes_ffnTokenInfoBuf p).2, ← toNat_mul_lt_iff]
  constructor
  · intro hrecords
    have hlength := congrArg List.length hrecords
    rw [length_flatten_replicate, length_flatten_replicate, length_microBatchRecord,
      length_microBatchRecord] at hlength
    have := Nat.eq_of_mul_eq_mul_left (Nat.mul_pos h.counts.1 h.counts.2.1) hlength
    omega
  · intro heq
    rw [heq]

/-- The output buffers stand one after the other in a workspace that is large enough for them. -/
theorem Initialized.outputs {dataPtr : UInt64 → UInt64} {context : ScheduleContext}
    (h : Initialized p dataPtr context)
    (hfits : (dataPtr context.workspaceSize).toNat + context.workspaceSize.toNat ≤ 2 ^ 64) (hworkspace : workspaceBytes p < 2 ^ 64) :
    context.ffn.outputs.Pairwise Apart ∧
      ∀ region ∈ context.ffn.outputs, (dataPtr context.workspaceSize).toNat ≤ region.1 ∧
        region.1 + region.2 ≤ (dataPtr context.workspaceSize).toNat + context.workspaceSize.toNat := by
  have hsize := h.toNat_workspaceSize
  rw [Nat.mod_eq_of_lt hworkspace, workspaceBytes] at hsize
  rw [hsize] at hfits ⊢
  have hlayer := h.toNat_layerIdsBufSize
  have hlayer' := h.toNat_alignUp_layer
  have hexpert := h.toNat_expertIdsBufSize
  have hsession : context.ffn.sessionIdsBufSize.toNat = 4 * p.sessionNum.toNat := by
    rw [h.sessionIdsBufSize, toNat_int32Size_mul]
  have hmicro : context.ffn.microBatchIdsBufSize.toNat = 4 * p.sessionNum.toNat := by
    rw [h.microBatchIdsBufSize, toNat_int32Size_mul]
  have hpos : 0 < 4 * p.sessionNum.toNat * p.microBatchSize.toNat * p.selectedExpertNum.toNat :=
    Nat.mul_pos (Nat.mul_pos (Nat.mul_pos (by decide) h.counts.1) h.counts.2.2.1) h.counts.2.2.2
  have hle := le_aligned (4 * p.sessionNum.toNat)
  have hle' := le_aligned (4 * p.sessionNum.toNat * p.microBatchSize.toNat * p.selectedExpertNum.toNat)
  generalize aligned (4 * p.sessionNum.toNat * p.microBatchSize.toNat * p.selectedExpertNum.toNat) = expert at *
  generalize aligned (4 * p.sessionNum.toNat) = layer at *
  generalize hbytes : 4 * p.sessionNum.toNat * p.microBatchSize.toNat * p.selectedExpertNum.toNat = bytes at *
  -- The sums of the addresses stay below the word, as the workspace does.
  have hbase : context.ffn.layerIdsBuf.toNat = (dataPtr context.workspaceSize).toNat := by rw [h.layerIdsBuf]
  have hsession' : context.ffn.sessionIdsBuf.toNat = (dataPtr context.workspaceSize).toNat + layer := by
    rw [h.sessionIdsBuf, UInt64.toNat_add, hbase, hlayer', Nat.mod_eq_of_lt (by omega)]
  have hmicro' : context.ffn.microBatchIdsBuf.toNat = (dataPtr context.workspaceSize).toNat + layer + layer := by
    rw [h.microBatchIdsBuf, UInt64.toNat_add, hsession', hlayer', Nat.mod_eq_of_lt (by omega)]
  have hexpert' : context.ffn.expertIdsBuf.toNat =
      (dataPtr context.workspaceSize).toNat + layer + layer + layer := by
    rw [h.expertIdsBuf, UInt64.toNat_add, hmicro', hlayer', Nat.mod_eq_of_lt (by omega)]
  simp only [FfnArea.outputs, Apart, List.pairwise_cons, List.forall_mem_cons, hbase, hsession', hmicro',
    hexpert', hlayer, hsession, hmicro, hexpert, List.not_mem_nil, false_implies, implies_true,
    List.Pairwise.nil, and_true]
  omega

/-- The tensor of the workspace is memory that does not wrap. -/
theorem layoutRight_iff {dataPtr : UInt64 → UInt64} {context : ScheduleContext}
    (hmode : p.scheduleMode = .ffn) (hinit : init p dataPtr = some context)
    (hfits : (dataPtr context.workspaceSize).toNat + context.workspaceSize.toNat ≤ 2 ^ 64) :
    LayoutRight p dataPtr context ↔
      p.microBatchSize.toNat * p.selectedExpertNum.toNat < 2 ^ 32 ∧
        p.ffnWindow.toNat + p.ffnWindowSize.toNat ≤ 2 ^ 64 ∧ workspaceBytes p < 2 ^ 64 := by
  have h := initialized_of_init hmode hinit
  have hroom := h.room
  have hle := le_aligned (tokenInfoBytes p)
  constructor
  · intro hlayout
    refine ⟨h.records_iff.mp hlayout.records, ?_, ?_⟩
    · have := hlayout.data_noWrap
      rw [h.tokenDataBuf, h.tokenDataBufSize] at this
      omega
    · rw [← hlayout.sizes.2.2.2.2.2.2]
      exact context.workspaceSize.toNat_lt
  · rintro ⟨hproduct, hwindow, hworkspace⟩
    obtain ⟨houtputs, hinside⟩ := h.outputs hfits hworkspace
    have hbytes := tokenInfoBytes_eq p
    refine ⟨?_, ?_, ?_, ?_, ?_, ?_, ?_, h.records_iff.mpr hproduct, houtputs, hinside, ?_⟩
    · left
      dsimp only
      rw [h.tokenInfoBuf, h.tokenInfoBufSize, h.tokenDataBuf]
      omega
    · rw [h.tokenInfoBuf, h.tokenInfoBufSize]
      omega
    · rw [h.tokenDataBuf, h.tokenDataBufSize]
      omega
    · rw [h.tokenInfoBuf, h.tokenInfoBufSize]
      omega
    · rw [h.tokenDataBuf, h.tokenDataBufSize]
      omega
    · rw [(writes_ffnTokenInfoBuf p).1, h.tokenInfoBufSize, hbytes, (toNat_mul_lt_iff _ _).mpr hproduct,
        Nat.mul_div_cancel_left _ (by decide)]
    · rw [h.tokenInfoBufSize, hbytes]
      exact Nat.dvd_mul_right ..
    · refine ⟨h.tokenInfoBufSize, h.tokenDataBufSize, h.toNat_layerIdsBufSize, ?_, ?_,
        h.toNat_expertIdsBufSize, ?_⟩
      · rw [h.sessionIdsBufSize, toNat_int32Size_mul]
      · rw [h.microBatchIdsBufSize, toNat_int32Size_mul]
      · rw [h.toNat_workspaceSize, Nat.mod_eq_of_lt hworkspace]

/-- One session with one micro batch of `size` tokens and `size` experts. -/
def squareParams (size : UInt32) (ffnWindowSize : UInt64) : ScheduleParams where
  scheduleMode := .ffn
  sessionNum := 1
  microBatchNum := 1
  microBatchSize := size
  selectedExpertNum := size
  expertNum := 64
  attnToFfnTokenSize := 512
  ffnToAttnTokenSize := 512
  ffnWindow := 1048576
  ffnWindowSize
  attentionWindow := 0
  attentionWindowSize := 0

theorem isSome_init_square : (init (squareParams 8 4096) (fun _ => 65536)).isSome := by decide +kernel

theorem layoutRight_square : ∃ context, init (squareParams 8 4096) (fun _ => 65536) = some context ∧
    LayoutRight (squareParams 8 4096) (fun _ => 65536) context :=
  ⟨_, (Option.some_get isSome_init_square).symm,
    (layoutRight_iff rfl (Option.some_get isSome_init_square).symm (by decide +kernel)).mpr (by decide +kernel)⟩

/-- With 65536 tokens and as many experts the bound of the loop wraps to 0, and no expert id is written. -/
theorem not_layoutRight_square : ∃ context, init (squareParams 65536 34359738368) (fun _ => 65536) = some context ∧
    ¬ LayoutRight (squareParams 65536 34359738368) (fun _ => 65536) context := by
  have h : (init (squareParams 65536 34359738368) (fun _ => 65536)).isSome := by decide +kernel
  refine ⟨_, (Option.some_get h).symm, ?_⟩
  intro hlayout
  have hproduct := (initialized_of_init rfl (Option.some_get h).symm).records_iff.mp hlayout.records
  exact absurd hproduct (by decide +kernel)

end TorchNpu.Afd

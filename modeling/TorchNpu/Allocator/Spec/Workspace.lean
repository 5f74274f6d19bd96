/-
  Are the blocks and the statistics of the workspace allocator consistent in every run?

  A block has memory of its size as long as the device does not refuse any, since its size is written first.  The
  statistics follow as long as each deleted pointer is found under its device, and is of the size that the device
  has handed out last.
-/
import TorchNpu.Allocator.Workspace

namespace TorchNpu.NPUWorkspaceAllocator

open Machine

namespace DeviceWorkspaceAllocator

/-! ### The memory of the blocks -/

/-- What a block holds of the memory of the device. -/
def heldSize (block : WorkspaceBlock) : ℕ :=
  if block.dataPtr.isSome then block.size else 0

theorem heldSize_some (ptr size : ℕ) : heldSize { dataPtr := some ptr, size } = size := rfl

/-- Each pointer is to memory of the recorded size, and to memory of its own. -/
structure Held (allocator : DeviceWorkspaceAllocator) : Prop where
  memory : ∀ stream block ptr, allocator.blocks.lookup stream = some block → block.dataPtr = some ptr →
    allocator.memory.lookup ptr = some block.size ∧ block.size ≠ 0
  distinct : ∀ stream stream' block block' ptr, allocator.blocks.lookup stream = some block →
    allocator.blocks.lookup stream' = some block' → block.dataPtr = some ptr → block'.dataPtr = some ptr →
    stream = stream'
  reserved : allocator.reservedBytes.current = total (fun _ => heldSize) allocator.blocks

/-- No block has a size without a pointer. -/
def Backed (allocator : DeviceWorkspaceAllocator) : Prop :=
  ∀ stream block, allocator.blocks.lookup stream = some block → block.dataPtr = none → block.size = 0

variable {allocator allocator' : DeviceWorkspaceAllocator}

theorem held_initial : ({} : DeviceWorkspaceAllocator).Held where
  memory _ _ _ hlookup := by cases hlookup
  distinct _ _ _ _ _ hlookup := by cases hlookup
  reserved := rfl

theorem backed_initial : ({} : DeviceWorkspaceAllocator).Backed := fun _ _ hlookup => by cases hlookup

theorem partAt_heldSize (stream : ℕ) :
    partAt (fun _ => heldSize) allocator.blocks stream = heldSize (allocator.block stream) := by
  unfold partAt block
  cases allocator.blocks.lookup stream with
  | none => rfl
  | some block => rfl

theorem lookup_of_dataPtr {stream ptr : ℕ} (h : (allocator.block stream).dataPtr = some ptr) :
    allocator.blocks.lookup stream = some (allocator.block stream) := by
  unfold block at h ⊢
  cases hlookup : allocator.blocks.lookup stream with
  | none =>
    rw [hlookup] at h
    cases h
  | some block => rfl

@[simp] theorem release_blocks (block : WorkspaceBlock) : (allocator.release block).blocks = allocator.blocks := by
  unfold release
  split <;> rfl

@[simp] theorem release_allocatedBytes (block : WorkspaceBlock) :
    (allocator.release block).allocatedBytes = allocator.allocatedBytes := by
  unfold release
  split <;> rfl

theorem release_reserved (block : WorkspaceBlock) :
    (allocator.release block).reservedBytes.current = allocator.reservedBytes.current - heldSize block := by
  obtain ⟨dataPtr, size⟩ := block
  cases dataPtr with
  | none => exact (Int.sub_zero _).symm
  | some ptr => rfl

theorem release_memory_ne {block : WorkspaceBlock} {ptr : ℕ} (h : block.dataPtr ≠ some ptr) :
    (allocator.release block).memory.lookup ptr = allocator.memory.lookup ptr := by
  obtain ⟨dataPtr, size⟩ := block
  cases dataPtr with
  | none => rfl
  | some ptr' => exact AList.lookup_erase_ne fun heq => h (congrArg some heq.symm)

/-- The block of a stream is exchanged: the memory of the old one is released, and the new one has none or new
memory. -/
theorem Held.exchange (h : allocator.Held) {stream : ℕ} {block : WorkspaceBlock}
    (hblocks : allocator'.blocks = allocator.blocks.insert stream block)
    (hmemory : ∀ ptr size, (allocator.release (allocator.block stream)).memory.lookup ptr = some size →
      allocator'.memory.lookup ptr = some size)
    (hnew : ∀ ptr, block.dataPtr = some ptr → allocator'.memory.lookup ptr = some block.size ∧ block.size ≠ 0 ∧
      (allocator.release (allocator.block stream)).memory.lookup ptr = none)
    (hreserved : allocator'.reservedBytes.current =
      (allocator.release (allocator.block stream)).reservedBytes.current + heldSize block) : allocator'.Held := by
  -- The other blocks keep their memory.
  have hother : ∀ stream' block' ptr, stream' ≠ stream → allocator.blocks.lookup stream' = some block' →
      block'.dataPtr = some ptr →
      (allocator.release (allocator.block stream)).memory.lookup ptr = some block'.size ∧ block'.size ≠ 0 := by
    intro stream' block' ptr hne hlookup hptr
    rw [release_memory_ne fun hsame => hne
      (h.distinct _ _ _ _ ptr hlookup (lookup_of_dataPtr hsame) hptr hsame)]
    exact h.memory stream' block' ptr hlookup hptr
  constructor
  case memory =>
    intro stream' block' ptr hlookup hptr
    rw [hblocks] at hlookup
    by_cases hsame : stream' = stream
    · subst hsame
      rw [AList.lookup_insert, Option.some.injEq] at hlookup
      subst hlookup
      obtain ⟨hlookup, hsize, -⟩ := hnew ptr hptr
      exact ⟨hlookup, hsize⟩
    · rw [AList.lookup_insert_ne hsame] at hlookup
      obtain ⟨hlookup, hsize⟩ := hother stream' block' ptr hsame hlookup hptr
      exact ⟨hmemory ptr _ hlookup, hsize⟩
  case distinct =>
    intro stream₁ stream₂ block₁ block₂ ptr hlookup₁ hlookup₂ hptr₁ hptr₂
    rw [hblocks] at hlookup₁ hlookup₂
    by_cases hsame₁ : stream₁ = stream
    · by_cases hsame₂ : stream₂ = stream
      · rw [hsame₁, hsame₂]
      · rw [hsame₁, AList.lookup_insert, Option.some.injEq] at hlookup₁
        rw [AList.lookup_insert_ne hsame₂] at hlookup₂
        subst hlookup₁
        have hold := (hother stream₂ block₂ ptr hsame₂ hlookup₂ hptr₂).1
        rw [(hnew ptr hptr₁).2.2] at hold
        cases hold
    · by_cases hsame₂ : stream₂ = stream
      · rw [hsame₂, AList.lookup_insert, Option.some.injEq] at hlookup₂
        rw [AList.lookup_insert_ne hsame₁] at hlookup₁
        subst hlookup₂
        have hold := (hother stream₁ block₁ ptr hsame₁ hlookup₁ hptr₁).1
        rw [(hnew ptr hptr₂).2.2] at hold
        cases hold
      · rw [AList.lookup_insert_ne hsame₁] at hlookup₁
        rw [AList.lookup_insert_ne hsame₂] at hlookup₂
        exact h.distinct _ _ _ _ ptr hlookup₁ hlookup₂ hptr₁ hptr₂
  case reserved =>
    have htotal := total_insert (fun _ => heldSize) allocator.blocks stream block
    rw [partAt_heldSize] at htotal
    rw [hblocks, hreserved, release_reserved, h.reserved]
    omega

/-- A block that is emplaced or stays changes nothing. -/
theorem Held.keep (h : allocator.Held) {stream : ℕ}
    (hblocks : allocator'.blocks = allocator.blocks.insert stream (allocator.block stream))
    (hmemory : allocator'.memory = allocator.memory) (hreserved : allocator'.reservedBytes = allocator.reservedBytes) :
    allocator'.Held := by
  have hlookup : ∀ stream' block ptr, allocator'.blocks.lookup stream' = some block → block.dataPtr = some ptr →
      allocator.blocks.lookup stream' = some block := by
    intro stream' block ptr hlookup hptr
    rw [hblocks] at hlookup
    by_cases hsame : stream' = stream
    · subst hsame
      rw [AList.lookup_insert, Option.some.injEq] at hlookup
      subst hlookup
      exact lookup_of_dataPtr hptr
    · rwa [AList.lookup_insert_ne hsame] at hlookup
  constructor
  case memory =>
    intro stream' block ptr h' hptr
    rw [hmemory]
    exact h.memory stream' block ptr (hlookup _ _ _ h' hptr) hptr
  case distinct =>
    exact fun _ _ _ _ ptr h₁ h₂ hptr₁ hptr₂ =>
      h.distinct _ _ _ _ ptr (hlookup _ _ _ h₁ hptr₁) (hlookup _ _ _ h₂ hptr₂) hptr₁ hptr₂
  case reserved =>
    have htotal := total_insert (fun _ => heldSize) allocator.blocks stream (allocator.block stream)
    rw [partAt_heldSize] at htotal
    rw [hreserved, hblocks, h.reserved]
    omega

/-! ### The operations of a device -/

theorem Backed.insert (h : allocator.Backed) {stream : ℕ} {block : WorkspaceBlock}
    (hblocks : allocator'.blocks = allocator.blocks.insert stream block)
    (hblock : block.dataPtr = none → block.size = 0) : allocator'.Backed := by
  intro stream' block' hlookup hptr
  rw [hblocks] at hlookup
  by_cases hsame : stream' = stream
  · subst hsame
    rw [AList.lookup_insert, Option.some.injEq] at hlookup
    subst hlookup
    exact hblock hptr
  · rw [AList.lookup_insert_ne hsame] at hlookup
    exact h stream' block' hlookup hptr

theorem block_eq_of_insert {stream : ℕ} {block : WorkspaceBlock}
    (hblocks : allocator'.blocks = allocator.blocks.insert stream block) : allocator'.block stream = block := by
  unfold DeviceWorkspaceAllocator.block
  rw [hblocks, AList.lookup_insert, Option.getD_some]

theorem Backed.block (h : allocator.Backed) (stream : ℕ) (hptr : (allocator.block stream).dataPtr = none) :
    (allocator.block stream).size = 0 := by
  unfold DeviceWorkspaceAllocator.block at hptr ⊢
  cases hlookup : allocator.blocks.lookup stream with
  | none => rfl
  | some block =>
    rw [hlookup] at hptr
    exact h stream block hlookup hptr

/-- Rounding is up, except where it overflows; then the size is 0. -/
theorem roundSize_eq_zero {size : ℕ} (hlt : size < 2 ^ 64) (h : roundSize size < size) : roundSize size = 0 := by
  unfold roundSize kRoundLarge at h ⊢
  omega

/-- The device is not asked in vain, and the size that is requested does not overflow. -/
def Answered (allocator : DeviceWorkspaceAllocator) (size stream : ℕ) (answer : Option ℕ) : Prop :=
  size + 32 < 2 ^ 64 ∧
    ((allocator.block stream).size < allocSize size → allocSize size ≤ roundSize (allocSize size) → answer ≠ none)

/-- What `malloc` does if the device does not refuse. -/
theorem malloc_spec (hheld : allocator.Held) (hbacked : allocator.Backed) {size stream : ℕ} {answer newPtr : Option ℕ}
    (hanswered : allocator.Answered size stream answer)
    (h : allocator.malloc size stream answer = some (allocator', newPtr)) :
    allocator'.Held ∧ allocator'.Backed ∧
      (newPtr = none ∧ allocator'.allocatedBytes = allocator.allocatedBytes ∨
        newPtr ≠ none ∧ size + 32 ≤ (allocator'.block stream).size ∧
          allocator'.allocatedBytes.current = allocator.allocatedBytes.current + (allocator'.block stream).size) := by
  have hsize : allocSize size = size + 32 := Nat.mod_eq_of_lt hanswered.1
  have hlt : allocSize size < 2 ^ 64 := hsize ▸ hanswered.1
  have hblocks (block : WorkspaceBlock) : (allocator.release (allocator.block stream)).blocks.insert stream block =
      allocator.blocks.insert stream block := by rw [release_blocks]
  unfold malloc at h
  simp only at h
  split_ifs at h with hgrow hround
  · -- The size overflows when it is rounded, and there is no block.
    have hzero := roundSize_eq_zero hlt hround
    cases h
    refine ⟨?_, ?_, .inl ⟨rfl, release_allocatedBytes _⟩⟩
    · refine hheld.exchange (hblocks { dataPtr := none, size := roundSize (allocSize size) }) (fun _ _ h => h) ?_ ?_
      · exact fun ptr hptr => nomatch hptr
      · exact (Int.add_zero _).symm
    · exact hbacked.insert (hblocks { dataPtr := none, size := roundSize (allocSize size) }) fun _ => hzero
  · cases answer with
    | none => exact absurd rfl (hanswered.2 hgrow (not_lt.mp hround))
    | some ptr =>
      simp only at h
      split_ifs at h with hfresh
      have hfresh : (allocator.release (allocator.block stream)).memory.lookup ptr = none :=
        AList.lookup_eq_none.mpr hfresh
      have hle := not_lt.mp hround
      obtain ⟨hallocator, rfl⟩ := Prod.mk.inj (Option.some.inj h)
      have hblocks := (congrArg DeviceWorkspaceAllocator.blocks hallocator).symm.trans
        (hblocks { dataPtr := some ptr, size := roundSize (allocSize size) })
      refine ⟨?_, hbacked.insert hblocks (fun hptr => nomatch hptr), .inr ⟨nofun, ?_, ?_⟩⟩
      · apply hheld.exchange hblocks
        · intro ptr' size' hlookup
          rw [← hallocator]
          refine (AList.lookup_insert_ne ?_).trans hlookup
          rintro rfl
          rw [hfresh] at hlookup
          cases hlookup
        · intro ptr' hptr
          cases hptr
          rw [← hallocator]
          exact ⟨AList.lookup_insert _, by dsimp only; omega, hfresh⟩
        · rw [← hallocator, heldSize_some]
          rfl
      · rw [block_eq_of_insert hblocks]
        dsimp only
        omega
      · rw [block_eq_of_insert hblocks, ← hallocator]
        show (allocator.release (allocator.block stream)).allocatedBytes.current + _ = _
        rw [release_allocatedBytes]
  · have hle := not_lt.mp hgrow
    obtain ⟨hallocator, rfl⟩ := Prod.mk.inj (Option.some.inj h)
    have hblocks : allocator'.blocks = allocator.blocks.insert stream (allocator.block stream) :=
      (congrArg DeviceWorkspaceAllocator.blocks hallocator).symm
    refine ⟨?_, hbacked.insert hblocks fun hptr => hbacked.block stream hptr, .inr ⟨?_, ?_, ?_⟩⟩
    · apply hheld.keep hblocks
      · rw [← hallocator]
      · rw [← hallocator]
    · intro hptr
      have hzero := hbacked.block stream hptr
      omega
    · rw [block_eq_of_insert hblocks]
      omega
    · rw [block_eq_of_insert hblocks, ← hallocator]
      rfl

theorem foldl_release_reserved (entries : List (Sigma fun _ : ℕ => WorkspaceBlock))
    (allocator : DeviceWorkspaceAllocator) :
    (entries.foldl (fun allocator entry => allocator.release entry.2) allocator).reservedBytes.current =
      allocator.reservedBytes.current - (entries.map fun entry => heldSize entry.2).sum ∧
    (entries.foldl (fun allocator entry => allocator.release entry.2) allocator).allocatedBytes =
      allocator.allocatedBytes := by
  induction entries generalizing allocator with
  | nil => exact ⟨(Int.sub_zero _).symm, rfl⟩
  | cons entry entries ih =>
    obtain ⟨hreserved, hallocated⟩ := ih (allocator.release entry.2)
    rw [List.foldl_cons, hreserved, hallocated, release_reserved, release_allocatedBytes, List.map_cons, List.sum_cons,
      Int.natCast_add]
    exact ⟨by omega, rfl⟩

theorem held_emptyCache (h : allocator.Held) : allocator.emptyCache.Held where
  memory _ _ _ hlookup := by cases hlookup
  distinct _ _ _ _ _ hlookup := by cases hlookup
  reserved := by
    unfold emptyCache
    show (allocator.blocks.entries.foldl _ allocator).reservedBytes.current = 0
    rw [(foldl_release_reserved _ _).1, h.reserved]
    exact Int.sub_self _

theorem emptyCache_allocatedBytes : allocator.emptyCache.allocatedBytes = allocator.allocatedBytes :=
  (foldl_release_reserved allocator.blocks.entries allocator).2

theorem backed_emptyCache : allocator.emptyCache.Backed := fun _ _ hlookup => by cases hlookup

end DeviceWorkspaceAllocator

/-! ### The system -/

namespace System

/-- The bytes of a device that are handed out. -/
def handedOutBytes (handedOut : List Handout) (device : ℕ) : ℕ :=
  ((handedOut.filter fun handout => handout.device = device).map Handout.size).sum

/-- Each block has memory of its size if its size is not 0; what is handed out is large enough; the statistics are
the sums over the blocks, and over what is handed out. -/
structure Consistent (s : System) : Prop where
  blocks : ∀ device stream block, (s.allocator.deviceAllocator device).blocks.lookup stream = some block →
    (block.size ≠ 0 ↔ ∃ ptr, block.dataPtr = some ptr ∧
      (s.allocator.deviceAllocator device).memory.lookup ptr = some block.size) ∧
    (block.size = 0 → block.dataPtr = none)
  handedOut : ∀ handout ∈ s.handedOut, handout.request + 32 ≤ handout.size
  reserved : ∀ device, (s.allocator.deviceAllocator device).reservedBytes.current =
    total (fun _ block => block.size) (s.allocator.deviceAllocator device).blocks
  allocated : ∀ device, (s.allocator.deviceAllocator device).allocatedBytes.current =
    handedOutBytes s.handedOut device
  nonneg : ∀ device, 0 ≤ (s.allocator.deviceAllocator device).allocatedBytes.current

/-- The steps that keep the allocator consistent: the device does not refuse memory, and no size overflows; a pointer
that is deleted is still known under its device, and is of the size that the device handed out last. -/
def Allowed (s : System) : Action → Prop
  | .mallocWithStream device size stream answer =>
    size ≠ 0 → (s.allocator.deviceAllocator device).Answered size stream answer
  | .delete handout =>
    s.allocator.allocatedPtrs.lookup handout.ptr = some handout.device ∧
      (s.allocator.deviceAllocator handout.device).allocatedSize = handout.size
  | .emptyCache _ => True

instance (s : System) (action : Action) : Decidable (s.Allowed action) := by
  unfold Allowed DeviceWorkspaceAllocator.Answered
  split <;> infer_instance

/-- What such steps keep. -/
structure Inv (s : System) : Prop where
  held : ∀ device, (s.allocator.deviceAllocator device).Held
  backed : ∀ device, (s.allocator.deviceAllocator device).Backed
  handedOut : ∀ handout ∈ s.handedOut, handout.request + 32 ≤ handout.size
  allocated : ∀ device, (s.allocator.deviceAllocator device).allocatedBytes.current =
    handedOutBytes s.handedOut device

theorem inv_initial : initial.Inv where
  held _ := DeviceWorkspaceAllocator.held_initial
  backed _ := DeviceWorkspaceAllocator.backed_initial
  handedOut _ hmem := nomatch hmem
  allocated _ := rfl

variable {s s' : System}

theorem Inv.consistent (h : s.Inv) : s.Consistent where
  blocks := by
    intro device stream block hlookup
    refine ⟨⟨fun hsize => ?_, ?_⟩, fun hsize => ?_⟩
    · cases hptr : block.dataPtr with
      | none => exact absurd (h.backed device stream block hlookup hptr) hsize
      | some ptr => exact ⟨ptr, rfl, ((h.held device).memory stream block ptr hlookup hptr).1⟩
    · rintro ⟨ptr, hptr, -⟩
      exact ((h.held device).memory stream block ptr hlookup hptr).2
    · rw [Option.eq_none_iff_forall_not_mem]
      intro ptr hptr
      exact ((h.held device).memory stream block ptr hlookup hptr).2 hsize
  handedOut := h.handedOut
  reserved := by
    intro device
    rw [(h.held device).reserved, total, total]
    refine congrArg (fun l : List ℕ => (l.sum : ℤ)) (List.map_congr_left fun entry hentry => ?_)
    have hlookup := AList.mem_lookup_iff.mpr hentry
    unfold DeviceWorkspaceAllocator.heldSize
    split_ifs with hptr
    · rfl
    · exact (h.backed device entry.1 entry.2 hlookup (by simpa using hptr)).symm
  allocated := h.allocated
  nonneg := by
    intro device
    rw [h.allocated device]
    exact Int.natCast_nonneg _

theorem handedOutBytes_cons (handout : Handout) (handedOut : List Handout) (device : ℕ) :
    handedOutBytes (handout :: handedOut) device =
      (if handout.device = device then handout.size else 0) + handedOutBytes handedOut device := by
  unfold handedOutBytes
  rw [List.filter_cons]
  split_ifs with hdevice hdevice' hdevice'
  · rw [List.map_cons, List.sum_cons]
  · exact absurd (of_decide_eq_true hdevice) hdevice'
  · exact absurd (decide_eq_true hdevice') hdevice
  · rw [Nat.zero_add]

theorem handedOutBytes_erase {handout : Handout} {handedOut : List Handout} (h : handout ∈ handedOut) (device : ℕ) :
    handedOutBytes handedOut device =
      (if handout.device = device then handout.size else 0) + handedOutBytes (handedOut.erase handout) device := by
  rw [← handedOutBytes_cons]
  unfold handedOutBytes
  exact (((List.perm_cons_erase h).filter _).map _).sum_nat

/-- A device changes and the others do not. -/
theorem Inv.update (h : s.Inv) {device : ℕ} (deviceAllocator : DeviceWorkspaceAllocator)
    (hdevices : s'.allocator.deviceAllocator = Function.update s.allocator.deviceAllocator device deviceAllocator)
    (hheld : deviceAllocator.Held) (hbacked : deviceAllocator.Backed)
    (hhandedOut : ∀ handout ∈ s'.handedOut, handout.request + 32 ≤ handout.size)
    (hallocated : deviceAllocator.allocatedBytes.current = handedOutBytes s'.handedOut device)
    (hother : ∀ device' ≠ device, handedOutBytes s'.handedOut device' = handedOutBytes s.handedOut device') :
    s'.Inv := by
  have hsame : s'.allocator.deviceAllocator device = deviceAllocator := by
    rw [hdevices, Function.update_self]
  have hothers (device' : ℕ) (hne : device' ≠ device) :
      s'.allocator.deviceAllocator device' = s.allocator.deviceAllocator device' := by
    rw [hdevices, Function.update_of_ne hne]
  refine ⟨fun device' => ?_, fun device' => ?_, hhandedOut, fun device' => ?_⟩
  · rcases eq_or_ne device' device with rfl | hne
    · exact hsame.symm ▸ hheld
    · exact (hothers device' hne).symm ▸ h.held device'
  · rcases eq_or_ne device' device with rfl | hne
    · exact hsame.symm ▸ hbacked
    · exact (hothers device' hne).symm ▸ h.backed device'
  · rcases eq_or_ne device' device with rfl | hne
    · rw [hsame]
      exact hallocated
    · rw [hothers device' hne, h.allocated, hother device' hne]

theorem deviceAllocator_malloc {allocator allocator' : NpuWorkspaceAllocator} {device size stream : ℕ}
    {answer newPtr : Option ℕ} (h : allocator.malloc device size stream answer = some (allocator', newPtr)) :
    ∃ deviceAllocator, (allocator.deviceAllocator device).malloc size stream answer = some (deviceAllocator, newPtr) ∧
      allocator'.deviceAllocator = Function.update allocator.deviceAllocator device deviceAllocator := by
  unfold NpuWorkspaceAllocator.malloc at h
  obtain ⟨⟨deviceAllocator, ptr⟩, hmalloc, h⟩ := Option.bind_eq_some_iff.mp h
  cases ptr with
  | none =>
    obtain ⟨rfl, rfl⟩ := Prod.mk.inj (Option.some.inj h)
    exact ⟨deviceAllocator, hmalloc, rfl⟩
  | some ptr =>
    obtain ⟨rfl, rfl⟩ := Prod.mk.inj (Option.some.inj h)
    refine ⟨deviceAllocator, hmalloc, ?_⟩
    split_ifs <;> rfl

theorem Inv.mallocWithStream (h : s.Inv) {device size stream : ℕ} {answer : Option ℕ}
    (hallowed : s.Allowed (.mallocWithStream device size stream answer))
    (hstep : step s (.mallocWithStream device size stream answer) = some s') : s'.Inv := by
  simp only [step] at hstep
  split_ifs at hstep with hsize
  · exact Option.some.inj hstep ▸ h
  obtain ⟨⟨allocator, newPtr⟩, hmalloc, rfl⟩ := Option.map_eq_some_iff.mp hstep
  obtain ⟨deviceAllocator, hdevice, hdevices⟩ := deviceAllocator_malloc hmalloc
  obtain ⟨hheld, hbacked, hresult⟩ :=
    DeviceWorkspaceAllocator.malloc_spec (h.held device) (h.backed device) (hallowed hsize) hdevice
  rcases hresult with ⟨rfl, hallocated⟩ | ⟨hptr, hlarge, hallocated⟩
  · -- The request is refused.
    show Inv { s with allocator }
    apply Inv.update h deviceAllocator hdevices hheld hbacked
    · exact h.handedOut
    · rw [hallocated]
      exact h.allocated device
    · exact fun _ _ => rfl
  · obtain ⟨ptr, rfl⟩ := Option.ne_none_iff_exists'.mp hptr
    have hblock : (allocator.deviceAllocator device).block stream = deviceAllocator.block stream := by
      rw [hdevices, Function.update_self]
    let handout : Handout :=
      { device, ptr, size := ((allocator.deviceAllocator device).block stream).size, request := size }
    show Inv { allocator, handedOut := handout :: s.handedOut }
    apply Inv.update h deviceAllocator hdevices hheld hbacked
    · intro handout hmem
      rcases List.mem_cons.mp hmem with rfl | hmem
      · rw [← hblock] at hlarge
        exact hlarge
      · exact h.handedOut handout hmem
    · show _ = ((handedOutBytes (_ :: s.handedOut) device : ℕ) : ℤ)
      have hsize' : handout.size = (deviceAllocator.block stream).size := congrArg WorkspaceBlock.size hblock
      rw [handedOutBytes_cons, if_pos rfl, hallocated, h.allocated device, hsize']
      omega
    · intro device' hne
      show handedOutBytes (_ :: s.handedOut) device' = _
      rw [handedOutBytes_cons, if_neg (Ne.symm hne), Nat.zero_add]

theorem Inv.delete (h : s.Inv) {handout : Handout} (hallowed : s.Allowed (.delete handout))
    (hstep : step s (.delete handout) = some s') : s'.Inv := by
  simp only [step] at hstep
  split_ifs at hstep with hmem
  obtain rfl := Option.some.inj hstep
  obtain ⟨hptr, hsize⟩ := hallowed
  have hbytes := handedOutBytes_erase hmem
  have hdevices : (s.allocator.free handout.ptr).deviceAllocator = Function.update s.allocator.deviceAllocator
      handout.device (s.allocator.deviceAllocator handout.device).free := by
    rw [NpuWorkspaceAllocator.free, hptr]
  apply h.update _ hdevices
  · have hheld := h.held handout.device
    exact ⟨hheld.memory, hheld.distinct, hheld.reserved⟩
  · exact h.backed handout.device
  · exact fun handout' hmem' => h.handedOut handout' (List.mem_of_mem_erase hmem')
  · have hbytes := hbytes handout.device
    rw [if_pos rfl] at hbytes
    show (s.allocator.deviceAllocator handout.device).allocatedBytes.current + -_ =
      ((handedOutBytes (s.handedOut.erase handout) handout.device : ℕ) : ℤ)
    rw [h.allocated, hsize, hbytes]
    omega
  · intro device' hne
    rw [hbytes device', if_neg (Ne.symm hne), Nat.zero_add]

theorem Inv.emptyCache (h : s.Inv) {device : ℕ} (hstep : step s (.emptyCache device) = some s') : s'.Inv := by
  obtain rfl := Option.some.inj hstep
  refine h.update (s.allocator.deviceAllocator device).emptyCache rfl
    (DeviceWorkspaceAllocator.held_emptyCache (h.held device)) DeviceWorkspaceAllocator.backed_emptyCache h.handedOut
    ?_ ?_
  · rw [DeviceWorkspaceAllocator.emptyCache_allocatedBytes]
    exact h.allocated device
  · exact fun _ _ => rfl

/-- In a run of allowed steps, the blocks and the statistics are consistent in every state. -/
theorem consistent_of_guarded {actions : List Action} (hallowed : Guarded step Allowed initial actions)
    (h : run step initial actions = some s) : s.Consistent := by
  refine (guarded_run_induction (P := Inv) ?_ inv_initial hallowed h).consistent
  intro s action s' hinv hallowed hstep
  cases action with
  | mallocWithStream device size stream answer => exact hinv.mallocWithStream hallowed hstep
  | delete handout => exact hinv.delete hallowed hstep
  | emptyCache device => exact hinv.emptyCache hstep

/-- Requests of two streams, one of which outgrows its block while the other's is deleted. -/
theorem consistent_of_guarded_twoStreams :
    ∃ s, run step initial
        [.mallocWithStream 0 100 0 (some 4096), .delete ⟨0, 4096, 2097152, 100⟩,
          .mallocWithStream 0 2097152 0 (some 4096), .mallocWithStream 1 8 7 (some 4096), .emptyCache 1] = some s ∧
      s.Consistent :=
  ⟨_, (Option.some_get (by decide +kernel)).symm,
    consistent_of_guarded (by decide +kernel) (Option.some_get _).symm⟩

/-- The device refuses the first request, and the block has a size without memory. -/
theorem not_consistent_refused :
    ¬∀ (actions : List Action) (s : System), run step initial actions = some s → s.Consistent := by
  intro hconsistent
  have hrun : (run step initial [.mallocWithStream 0 1 0 none]).any fun s =>
      (s.allocator.deviceAllocator 0).blocks.lookup 0 = some { dataPtr := none, size := 2097152 } := by
    decide +kernel
  obtain ⟨s, hs, hlookup⟩ := (Option.any_eq_true _ _).mp hrun
  have h := hconsistent _ s hs
  obtain ⟨ptr, hptr, -⟩ := (h.blocks 0 0 { dataPtr := none, size := 2097152 } (decide_eq_true_eq.mp hlookup)).1.mp
    (by decide)
  cases hptr

end System

end TorchNpu.NPUWorkspaceAllocator

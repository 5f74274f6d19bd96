/-
  When sharded attention computes the shards of attention.

  A rank's tensors are windows of the tensors, of consecutive batch entries and heads.  If the window of the query
  heads is made up of the groups of the window of the key heads, a query head sees on the rank what it sees in the
  whole.
-/
import TorchNpu.DTensor.Attention

namespace TorchNpu.DTensor.Attention

open Text

variable {β γ : Type}

/-! ### What is to hold -/

/-- The arguments in the order of the signatures. -/
def attentionArgs : List Arg :=
  [.query, .key, .value, .headNum, .inputLayout, .pse, .paddingMask, .attenMask, .scale, .keepProb, .preTockens,
    .nextTockens, .innerPrecise, .prefixes, .actualSeqQlen, .actualSeqKvlen, .sparseMode, .genMaskParallel, .sync,
    .softmaxLayout, .sink]

def attentionGradArgs (version : Version) : List Arg :=
  [.query, .key, .value, .dy, .headNum, .inputLayout, .pse, .paddingMask, .attenMask, .softmaxMax, .softmaxSum,
    .softmaxIn, .attentionIn, .scale, .keepProb, .preTockens, .nextTockens, .innerPrecise, .seed, .offset] ++
  (match version with
    | .v1 => [.numels]
    | .v3 => []) ++
  [.prefixes, .actualSeqQlen, .actualSeqKvlen, .sparseMode, .genMaskParallel, .sync, .softmaxLayout, .sink]

/-- The keyword arguments that may be tensors. -/
def gradKwargs : Version → List Arg
  | .v1 => [.pse, .paddingMask, .attenMask, .softmaxMax, .softmaxSum, .softmaxIn, .attentionIn, .sink]
  | .v3 => [.pse, .paddingMask, .attenMask, .softmaxMax, .softmaxSum, .softmaxIn, .attentionIn, .sink, .seed, .offset,
    .actualSeqQlen, .actualSeqKvlen]

/-- The placement that a strategy lists for an argument. -/
def listed (args : List Arg) (s : Sharding) (arg : Arg) : Option Placement :=
  ((args.zip s.2).lookup arg).join

/-- The placement that is derived for a keyword argument, or listed for another. -/
def derived (version : Version) (c : Call) (s : Sharding) (arg : Arg) : Option Placement :=
  if arg ∈ gradKwargs version then
    match inferNpuFusionAttentionGradKwargsSpec c (s.1.head?.join.toList) arg with
    | some (.ok placements) => placements.head?
    | _ => none
  else listed (attentionGradArgs version) s arg

/-- The two descriptions of the keyword arguments are the same. -/
def Agrees (version : Version) (c : Call) (s : Sharding) : Prop :=
  ∀ arg ∈ gradKwargs version, c.tensors arg ≠ none →
    derived version c s arg = listed (attentionGradArgs version) s arg

def Blocks.Same (T T' : Blocks β) : Prop :=
  T.batches = T'.batches ∧ T.heads = T'.heads ∧ ∀ b < T.batches, ∀ n < T.heads, T.get b n = T'.get b n

/-- The numbers of batch entries, of key heads, and of query heads for each of these. -/
structure Sizes where
  batches : ℕ
  kvHeads : ℕ
  group : ℕ
  batches_pos : 0 < batches
  kvHeads_pos : 0 < kvHeads
  group_pos : 0 < group

/-- A mask is BNSS, B1SS, 11SS or SS, and every other tensor has all batch entries and heads. -/
def FitsArg (c : Call) (sizes : Sizes) (blocks : Blocks β) : Arg → Prop
  | .key | .value => blocks.batches = sizes.batches ∧ blocks.heads = sizes.kvHeads
  | .attenMask => ∃ shape, c.tensors .attenMask = some shape ∧
    (if shape.length = 4 then shape.getD 0 1 = blocks.batches ∧ shape.getD 1 1 = blocks.heads
      else blocks.batches = 1 ∧ blocks.heads = 1) ∧
    (blocks.batches = 1 ∨ blocks.batches = sizes.batches) ∧
    (blocks.heads = 1 ∨ blocks.heads = sizes.kvHeads * sizes.group)
  | _ => blocks.batches = sizes.batches ∧ blocks.heads = sizes.kvHeads * sizes.group

structure Fits (c : Call) (sizes : Sizes) (args : List Arg) (T : Tensors β) : Prop where
  query : T .query ≠ none
  key : T .key ≠ none
  fits : ∀ arg blocks, T arg = some blocks → arg ∈ args ∧
    (arg ∈ [.query, .key, .value, .dy] ∨ c.tensors arg ≠ none) ∧ FitsArg c sizes blocks arg

/-- What each rank computes is its shard of the result. -/
def Shards (c : Call) (placements : Arg → Option Placement) (p headNum : ℕ) (T : Tensors β)
    (op : ℕ → Tensors β → Option (Blocks γ)) (dims : Text) (placement : Option Placement) : Prop :=
  ∀ r < p, ∃ full part shard, op headNum T = some full ∧
    npuFusionAttentionHandler c placements op headNum p r T = some part ∧
    (placement.bind fun placement => full.chunk dims p r placement) = some shard ∧ part.Same shard

/-- Attention under a strategy, whatever the kernels compute. -/
def AttentionSound (c : Call) (sizes : Sizes) (p : ℕ) (s : Sharding) : Prop :=
  ∀ (β γ : Type) (T : Tensors β), Fits c sizes [.query, .key, .value, .attenMask] T →
    ∀ f : (Arg → Option β) → γ, ∀ out ∈ [c.inputLayout, statDims, statDims].zip s.1,
      Shards c (listed attentionArgs s) p (sizes.kvHeads * sizes.group) T (perHead f) out.1 out.2

/-- The gradients of the query for each query head, and those of the keys and values for each key head. -/
def AttentionGradSound (version : Version) (c : Call) (sizes : Sizes) (p : ℕ) (s : Sharding) : Prop :=
  Agrees version c s ∧ ∀ (β γ : Type) (T : Tensors β),
    Fits c sizes [.query, .key, .value, .dy, .attenMask, .softmaxMax, .softmaxSum, .attentionIn] T →
      (∀ f : (Arg → Option β) → γ, Shards c (derived version c s) p (sizes.kvHeads * sizes.group) T (perHead f)
        c.inputLayout s.1.head?.join) ∧
      ∀ f : List (Arg → Option β) → γ, ∀ out ∈ (s.1.drop 1).take 2, Shards c (derived version c s) p
        (sizes.kvHeads * sizes.group) T (perGroup f) c.inputLayout out

/-- The strategy cuts the batch, or the heads. -/
def Cuts (c : Call) (dim : Char) (s : Sharding) : Prop :=
  dim ∈ c.inputLayout ∧ s.1.head? = some (some (.shard (c.inputLayout.idxOf dim)))

/-- The dimension that is cut has an entry for each rank. -/
def Accepted (c : Call) (sizes : Sizes) (p : ℕ) (s : Sharding) : Prop :=
  (Cuts c 'B' s → p ≤ sizes.batches) ∧ (Cuts c 'N' s → p ≤ sizes.kvHeads)

/-- A mask that is cut has the dimension at the index that it has in the layout. -/
def MaskAgrees (c : Call) (dim : Char) (stat : ℕ) : Prop :=
  ∀ shape, c.tensors .attenMask = some shape → shape.length = 4 → shape.getD stat 1 ≠ 1 →
    c.inputLayout.idxOf dim = stat

/-! ### Windows -/

variable {c : Call} {sizes : Sizes} {p r : ℕ} {T T' : Tensors β}

/-- Consecutive batch entries, and consecutive key heads with the query heads of their groups. -/
structure Window where
  batch : ℕ
  batches : ℕ
  head : ℕ
  heads : ℕ

/-- The window of a tensor, where a dimension of one is kept. -/
def Window.of (w : Window) (group : ℕ) (arg : Arg) (blocks : Blocks β) : Blocks β :=
  match arg with
  | .key | .value => blocks.window w.batch w.batches w.head w.heads
  | .attenMask =>
    blocks.window (if blocks.batches = 1 then 0 else w.batch) (if blocks.batches = 1 then 1 else w.batches)
      (if blocks.heads = 1 then 0 else w.head * group) (if blocks.heads = 1 then 1 else w.heads * group)
  | _ => blocks.window w.batch w.batches (w.head * group) (w.heads * group)

theorem broadcast_window {w : Window} {group b n : ℕ} {blocks : Blocks β} (hb : b < w.batches)
    (hn : n < w.heads * group) :
    (w.of group .attenMask blocks).broadcast b n = blocks.broadcast (b + w.batch) (n + w.head * group) := by
  have hsame {size start len i : ℕ} (hi : i < len) :
      (if (if size = 1 then 1 else len) = 1 then 0 else i) + (if size = 1 then 0 else start) =
        if size = 1 then 0 else i + start := by
    split_ifs <;> omega
  unfold Window.of Blocks.broadcast Blocks.window
  dsimp only
  rw [hsame hb, hsame hn]

/-- A query head sees in the window what it sees in the whole. -/
theorem headArgs_window {w : Window} {group b n : ℕ} (hT : ∀ arg, T' arg = (T arg).map (w.of group arg))
    (hgroup : 0 < group) (hb : b < w.batches) (hn : n < w.heads * group) :
    headArgs T' group b n = headArgs T group (b + w.batch) (n + w.head * group) := by
  funext arg
  unfold headArgs
  rw [hT]
  rcases T arg with _ | blocks
  · rfl
  · rw [Option.map_some, Option.map_some, Option.map_some, Option.some.injEq]
    cases arg with
    | key | value =>
      show blocks.get (b + w.batch) (n / group + w.head) = blocks.get (b + w.batch) ((n + w.head * group) / group)
      rw [Nat.add_mul_div_right _ _ hgroup]
    | attenMask => exact broadcast_window hb hn
    | _ => rfl

/-- The numbers of batch entries and heads of the queries and keys. -/
structure Dims (T : Tensors β) (batches heads group : ℕ) : Prop where
  query : ∃ q, T .query = some q ∧ q.batches = batches ∧ q.heads = heads * group
  key : ∃ k, T .key = some k ∧ k.batches = batches ∧ k.heads = heads

theorem perHead_eq {batches heads group : ℕ} (h : Dims T batches heads group) (f : (Arg → Option β) → γ) :
    perHead f (heads * group) T =
      some ⟨batches, heads * group, fun b n => f (headArgs T (heads * group / heads) b n)⟩ := by
  obtain ⟨q, hq, rfl, hheads⟩ := h.query
  obtain ⟨k, hk, -, rfl⟩ := h.key
  unfold perHead
  rw [hq, hk]
  show (if _ then _ else none) = _
  rw [if_pos ⟨hheads.symm, hheads ▸ Nat.dvd_mul_right _ _⟩, hheads]

theorem perGroup_eq {batches heads group : ℕ} (h : Dims T batches heads group) (f : List (Arg → Option β) → γ) :
    perGroup f (heads * group) T = some ⟨batches, heads, fun b n =>
      f ((List.range (heads * group / heads)).map fun j =>
        headArgs T (heads * group / heads) b (n * (heads * group / heads) + j))⟩ := by
  obtain ⟨q, hq, -, hheads⟩ := h.query
  obtain ⟨k, hk, rfl, rfl⟩ := h.key
  unfold perGroup
  rw [hq, hk]
  show (if _ then _ else none) = _
  rw [if_pos ⟨hheads.symm, hheads ▸ Nat.dvd_mul_right _ _⟩, hheads]

theorem Fits.dims {args : List Arg} (h : Fits c sizes args T) : Dims T sizes.batches sizes.kvHeads sizes.group := by
  obtain ⟨q, hq⟩ := Option.ne_none_iff_exists'.mp h.query
  obtain ⟨k, hk⟩ := Option.ne_none_iff_exists'.mp h.key
  exact ⟨⟨q, hq, (h.fits _ _ hq).2.2⟩, ⟨k, hk, (h.fits _ _ hk).2.2⟩⟩

theorem Dims.window {w : Window} {batches heads group : ℕ} (h : Dims T batches heads group)
    (hT : ∀ arg, T' arg = (T arg).map (w.of group arg)) : Dims T' w.batches w.heads group := by
  obtain ⟨q, hq, -⟩ := h.query
  obtain ⟨k, hk, -⟩ := h.key
  exact ⟨⟨_, by rw [hT, hq]; rfl, rfl, rfl⟩, ⟨_, by rw [hT, hk]; rfl, rfl, rfl⟩⟩

/-! ### Chunks that are windows -/

/-- The chunk of a tensor with all batch entries and heads is the window. -/
def CutsTo (sizes : Sizes) (p r : ℕ) (w : Window) (dims : Text) (placement : Placement) : Prop :=
  ∀ {β : Type} (blocks : Blocks β) (n : ℕ), n = 1 ∨ n = sizes.group → blocks.batches = sizes.batches →
    blocks.heads = sizes.kvHeads * n →
      blocks.chunk dims p r placement = some (blocks.window w.batch w.batches (w.head * n) (w.heads * n))

/-- Placements of the tensors with the dimensions of the layout, of the statistics, and of the mask, under which every
rank has a window. -/
def Windows (c : Call) (sizes : Sizes) (p : ℕ) (placement stat mask : Placement) : Prop :=
  ∀ r < p, ∃ w : Window, ('N' ∉ c.inputLayout → w.heads = sizes.kvHeads) ∧
    CutsTo sizes p r w c.inputLayout placement ∧ CutsTo sizes p r w statDims stat ∧
      ∀ {β : Type} (blocks : Blocks β), FitsArg c sizes blocks .attenMask →
        blocks.chunk maskDims p r mask = some (w.of sizes.group .attenMask blocks)

theorem windows_replicate : Windows c sizes p .replicate .replicate .replicate := by
  intro r _
  have hcut (dims : Text) : CutsTo sizes p r ⟨0, sizes.batches, 0, sizes.kvHeads⟩ dims .replicate := by
    intro β blocks n _ hbatches hheads
    rw [Nat.zero_mul, ← hbatches, ← hheads]
    rfl
  refine ⟨⟨0, sizes.batches, 0, sizes.kvHeads⟩, fun _ => rfl, hcut _, hcut _, ?_⟩
  rintro β blocks ⟨shape, -, -, hbatches, hheads⟩
  unfold Window.of
  rw [Nat.zero_mul, ite_self, ite_self]
  have hkeep {size all : ℕ} (h : size = 1 ∨ size = all) : (if size = 1 then 1 else all) = size := by
    split_ifs <;> omega
  rw [hkeep hbatches, hkeep hheads]
  rfl

/-- Whether a mask is cut along a dimension of BNSS. -/
theorem chunk_attenMask {blocks : Blocks β} {stat : ℕ} (h : FitsArg c sizes blocks .attenMask) (hstat : stat < 2) :
    blocks.chunk maskDims p r ((attenMaskSharding c stat).getD .replicate) =
      if stat = 0 then
        if blocks.batches = 1 then some blocks
        else some (blocks.window (chunkStart blocks.batches p r) (chunkLen blocks.batches p r) 0 blocks.heads)
      else
        if blocks.heads = 1 then some blocks
        else some (blocks.window 0 blocks.batches (chunkStart blocks.heads p r) (chunkLen blocks.heads p r)) := by
  obtain ⟨shape, hshape, hfour, -⟩ := h
  unfold attenMaskSharding
  rw [hshape, Option.map_some, Option.getD_some]
  by_cases hlength : shape.length = 4
  · rw [if_pos hlength] at hfour
    obtain rfl | rfl : stat = 0 ∨ stat = 1 := by omega
    · rw [hfour.1, if_pos rfl]
      by_cases hone : blocks.batches = 1
      · rw [if_neg fun h => h.2 hone, if_pos hone]
        rfl
      · rw [if_pos ⟨hlength, hone⟩, if_neg hone]
        rfl
    · rw [hfour.2, if_neg Nat.one_ne_zero]
      by_cases hone : blocks.heads = 1
      · rw [if_neg fun h => h.2 hone, if_pos hone]
        rfl
      · rw [if_pos ⟨hlength, hone⟩, if_neg hone]
        rfl
  · rw [if_neg hlength] at hfour
    rw [if_neg fun h => hlength h.1, if_pos hfour.1, if_pos hfour.2]
    split_ifs <;> rfl

theorem windows_batch (hB : 'B' ∈ c.inputLayout) :
    Windows c sizes p (.shard (c.inputLayout.idxOf 'B')) (.shard 0) ((attenMaskSharding c 0).getD .replicate) := by
  intro r _
  have hcut {dims : Text} {d : ℕ} (hd : dims[d]? = some 'B') : CutsTo sizes p r
      ⟨chunkStart sizes.batches p r, chunkLen sizes.batches p r, 0, sizes.kvHeads⟩ dims (.shard d) := by
    intro β blocks n _ hbatches hheads
    unfold Blocks.chunk
    dsimp only
    rw [if_pos hd, hbatches, hheads, Nat.zero_mul]
  refine ⟨_, fun _ => rfl, hcut (List.getElem?_idxOf hB), hcut rfl, ?_⟩
  intro β blocks hfits
  rw [chunk_attenMask hfits (Nat.zero_lt_succ 1), if_pos rfl]
  obtain ⟨shape, -, -, hbatches, hheads⟩ := hfits
  unfold Window.of
  dsimp only
  rw [Nat.zero_mul, ite_self]
  have hkeep : (if blocks.heads = 1 then 1 else sizes.kvHeads * sizes.group) = blocks.heads := by
    split_ifs <;> omega
  rw [hkeep]
  by_cases hone : blocks.batches = 1
  · rw [if_pos hone, if_pos hone, if_pos hone, ← hone]
    rfl
  · rw [if_neg hone, if_neg hone, if_neg hone, hbatches.resolve_left hone]

theorem windows_heads (hN : 'N' ∈ c.inputLayout) (hp : 0 < p) (heven : RepeatsEvenly sizes.kvHeads sizes.group p) :
    Windows c sizes p (.shard (c.inputLayout.idxOf 'N')) (.shard 1) ((attenMaskSharding c 1).getD .replicate) := by
  intro r _
  have hcut {dims : Text} {d : ℕ} (hd : dims[d]? = some 'N') : CutsTo sizes p r
      ⟨0, sizes.batches, chunkStart sizes.kvHeads p r, chunkLen sizes.kvHeads p r⟩ dims (.shard d) := by
    intro β blocks n hn hbatches hheads
    unfold Blocks.chunk
    dsimp only
    rw [hd, if_neg (by decide), if_pos rfl, hbatches, hheads]
    rcases hn with rfl | rfl
    · rw [Nat.mul_one, Nat.mul_one, Nat.mul_one]
    · rw [chunkStart_mul hp heven, chunkLen_mul hp heven]
  refine ⟨_, fun h => absurd hN h, hcut (List.getElem?_idxOf hN), hcut rfl, ?_⟩
  intro β blocks hfits
  rw [chunk_attenMask hfits (Nat.one_lt_two), if_neg Nat.one_ne_zero]
  obtain ⟨shape, -, -, hbatches, hheads⟩ := hfits
  unfold Window.of
  dsimp only
  rw [ite_self]
  have hkeep : (if blocks.batches = 1 then 1 else sizes.batches) = blocks.batches := by
    split_ifs <;> omega
  rw [hkeep]
  by_cases hone : blocks.heads = 1
  · rw [if_pos hone, if_pos hone, if_pos hone, ← hone]
    rfl
  · rw [if_neg hone, if_neg hone, if_neg hone, hheads.resolve_left hone, chunkStart_mul hp heven,
      chunkLen_mul hp heven]

/-! ### Local calls -/

variable {placements : Arg → Option Placement} {placement stat mask : Placement}

/-- The placement of an argument. -/
def placementOf (placement stat mask : Placement) : Arg → Placement
  | .softmaxMax | .softmaxSum => stat
  | .attenMask => mask
  | _ => placement

theorem localTensors_window {w : Window} {args : List Arg} (hfits : Fits c sizes args T)
    (hplacements : ∀ arg, T arg ≠ none → placements arg = some (placementOf placement stat mask arg))
    (hlayout : CutsTo sizes p r w c.inputLayout placement) (hstat : CutsTo sizes p r w statDims stat)
    (hmask : ∀ {β : Type} (blocks : Blocks β), FitsArg c sizes blocks .attenMask →
      blocks.chunk maskDims p r mask = some (w.of sizes.group .attenMask blocks)) (arg : Arg) :
    localTensors c.inputLayout placements p r T arg = (T arg).map (w.of sizes.group arg) := by
  unfold localTensors
  rcases hT : T arg with _ | blocks
  · rfl
  · have hplacement := hplacements arg (by rw [hT]; exact Option.some_ne_none _)
    have hfit := (hfits.fits arg blocks hT).2.2
    rw [hplacement]
    show blocks.chunk (dimsOf c.inputLayout arg) p r (placementOf placement stat mask arg) = some _
    cases arg with
    | attenMask => exact hmask blocks hfit
    | softmaxMax | softmaxSum => exact hstat blocks _ (Or.inr rfl) hfit.1 hfit.2
    | key | value =>
      have h := hlayout blocks 1 (Or.inl rfl) hfit.1 (by rw [Nat.mul_one]; exact hfit.2)
      rw [Nat.mul_one, Nat.mul_one] at h
      exact h
    | _ => exact hlayout blocks _ (Or.inr rfl) hfit.1 hfit.2

/-- Under placements that give every rank a window, the ranks compute the shards of what the kernels compute for each
query head, and for each key head. -/
theorem shards_of_windows {args : List Arg} (hwindows : Windows c sizes p placement stat mask)
    (hfits : Fits c sizes args T)
    (hplacements : ∀ arg, T arg ≠ none → placements arg = some (placementOf placement stat mask arg)) :
    (∀ (f : (Arg → Option β) → γ) (out : Text × Placement),
        out = (c.inputLayout, placement) ∨ out = (statDims, stat) →
        Shards c placements p (sizes.kvHeads * sizes.group) T (perHead f) out.1 (some out.2)) ∧
      ∀ f : List (Arg → Option β) → γ,
        Shards c placements p (sizes.kvHeads * sizes.group) T (perGroup f) c.inputLayout (some placement) := by
  have hwhole := hfits.dims
  have hdiv {n : ℕ} (h : 0 < n) : n * sizes.group / n = sizes.group := Nat.mul_div_cancel_left _ h
  have hcall (r : ℕ) (hr : r < p) : ∃ (w : Window) (T' : Tensors β),
      (∀ arg, T' arg = (T arg).map (w.of sizes.group arg)) ∧ Dims T' w.batches w.heads sizes.group ∧
      CutsTo sizes p r w c.inputLayout placement ∧ CutsTo sizes p r w statDims stat ∧
      ∀ op : ℕ → Tensors β → Option (Blocks γ), npuFusionAttentionHandler c placements op
        (sizes.kvHeads * sizes.group) p r T = op (w.heads * sizes.group) T' := by
    obtain ⟨w, hheads, hlayout, hstat, hmask⟩ := hwindows r hr
    have hlocal := localTensors_window hfits hplacements hlayout hstat hmask
    refine ⟨w, _, hlocal, hwhole.window hlocal, hlayout, hstat, fun op => ?_⟩
    obtain ⟨q, hq, -, hqheads⟩ := (hwhole.window hlocal).query
    unfold npuFusionAttentionHandler
    dsimp only
    rw [hq, Option.bind_eq_bind, Option.bind_some, hqheads]
    split_ifs with hN
    · rfl
    · rw [hheads hN]
  constructor
  · intro f out hout r hr
    obtain ⟨w, T', hT', hdims, hlayout, hstat, hop⟩ := hcall r hr
    have hcut : CutsTo sizes p r w out.1 out.2 := by
      rcases hout with rfl | rfl
      · exact hlayout
      · exact hstat
    refine ⟨_, _, _, perHead_eq hwhole f, (hop _).trans (perHead_eq hdims f), hcut _ _ (Or.inr rfl) rfl rfl, rfl, rfl,
      ?_⟩
    intro b hb n hn
    have hpos : 0 < w.heads := Nat.pos_of_ne_zero fun hzero => by
      have hlt : n < w.heads * sizes.group := hn
      rw [hzero, Nat.zero_mul] at hlt
      exact Nat.not_lt_zero n hlt
    show f _ = f _
    rw [hdiv sizes.kvHeads_pos, hdiv hpos, headArgs_window hT' sizes.group_pos hb hn]
  · intro f r hr
    obtain ⟨w, T', hT', hdims, hlayout, -, hop⟩ := hcall r hr
    have hshard := hlayout ⟨sizes.batches, sizes.kvHeads, fun b n => f ((List.range
      (sizes.kvHeads * sizes.group / sizes.kvHeads)).map fun j => headArgs T
        (sizes.kvHeads * sizes.group / sizes.kvHeads) b (n * (sizes.kvHeads * sizes.group / sizes.kvHeads) + j))⟩
      1 (Or.inl rfl) rfl (Nat.mul_one _).symm
    rw [Nat.mul_one, Nat.mul_one] at hshard
    refine ⟨_, _, _, perGroup_eq hwhole f, (hop _).trans (perGroup_eq hdims f), hshard, rfl, rfl, ?_⟩
    intro b hb n hn
    show f _ = f _
    rw [hdiv sizes.kvHeads_pos, hdiv (Nat.zero_lt_of_lt hn)]
    congr 1
    refine List.map_congr_left fun j hj => ?_
    -- The group of a key head of the window is the group of the key head.
    have hlt : n * sizes.group + j < w.heads * sizes.group := by
      have hle : (n + 1) * sizes.group ≤ w.heads * sizes.group := Nat.mul_le_mul_right sizes.group hn
      rw [Nat.succ_mul] at hle
      have := List.mem_range.mp hj
      omega
    rw [headArgs_window hT' sizes.group_pos hb hlt, Nat.add_mul]
    congr 1
    omega

theorem perHead_eq_some {f : (Arg → Option β) → γ} {headNum : ℕ} {q k : Blocks β} {part : Blocks γ}
    (hq : T .query = some q) (hk : T .key = some k) (h : perHead f headNum T = some part) : k.heads ∣ q.heads ∧
      part = ⟨q.batches, q.heads, fun b n => f (headArgs T (q.heads / k.heads) b n)⟩ := by
  unfold perHead at h
  rw [hq, hk] at h
  change (if headNum = q.heads ∧ k.heads ∣ q.heads then some _ else none) = some part at h
  split_ifs at h with hheads
  exact ⟨hheads.2, (Option.some.inj h).symm⟩

/-- If the ranks' query heads see their keys, the chunks of the query heads are made up of the groups. -/
theorem repeatsEvenly_of_shards (hp : 0 < p) (hle : p ≤ sizes.kvHeads) (hN : 'N' ∈ c.inputLayout)
    (hquery : placements .query = some (.shard (c.inputLayout.idxOf 'N')))
    (hkey : placements .key = some (.shard (c.inputLayout.idxOf 'N')))
    (hshards : ∀ T : Tensors ℕ, Fits c sizes [.query, .key] T →
      Shards c placements p (sizes.kvHeads * sizes.group) T (perHead fun args => args .key) c.inputLayout
        (some (.shard (c.inputLayout.idxOf 'N')))) :
    RepeatsEvenly sizes.kvHeads sizes.group p := by
  let T : Tensors ℕ := fun arg =>
    match arg with
    | .query => some ⟨sizes.batches, sizes.kvHeads * sizes.group, fun _ _ => 0⟩
    | .key => some ⟨sizes.batches, sizes.kvHeads, fun _ n => n⟩
    | _ => none
  have hfits : Fits c sizes [.query, .key] T := by
    refine ⟨Option.some_ne_none _, Option.some_ne_none _, ?_⟩
    intro arg blocks hT
    cases arg <;> first | cases hT; exact ⟨by decide, Or.inl (by decide), rfl, rfl⟩ | exact nomatch hT
  obtain ⟨full, part, shard, hfull, hpart, hshard, hsame⟩ := hshards T hfits 0 hp
  have hd : c.inputLayout[c.inputLayout.idxOf 'N']? = some 'N' := List.getElem?_idxOf hN
  have hchunk {β : Type} (blocks : Blocks β) : blocks.chunk c.inputLayout p 0 (.shard (c.inputLayout.idxOf 'N')) =
      some (blocks.window 0 blocks.batches 0 (chunkLen blocks.heads p 0)) := by
    unfold Blocks.chunk
    dsimp only
    rw [hd, if_neg (by decide), if_pos rfl, chunkStart_zero]
  -- The rank has as many query heads and key heads as there are in the first chunks.
  have hquery' : localTensors c.inputLayout placements p 0 T .query = some (Blocks.window 0 sizes.batches 0
      (chunkLen (sizes.kvHeads * sizes.group) p 0) ⟨sizes.batches, sizes.kvHeads * sizes.group, fun _ _ => 0⟩) := by
    unfold localTensors
    rw [hquery]
    exact hchunk _
  have hkey' : localTensors c.inputLayout placements p 0 T .key = some (Blocks.window 0 sizes.batches 0
      (chunkLen sizes.kvHeads p 0) ⟨sizes.batches, sizes.kvHeads, fun _ n => n⟩) := by
    unfold localTensors
    rw [hkey]
    exact hchunk _
  rw [perHead_eq hfits.dims, Option.some.injEq] at hfull
  subst hfull
  rw [Option.bind_some, hchunk, Option.some.injEq] at hshard
  subst hshard
  unfold npuFusionAttentionHandler at hpart
  dsimp only at hpart
  rw [hquery', Option.bind_eq_bind, Option.bind_some, if_pos hN] at hpart
  have hpos : 0 < sizes.kvHeads * sizes.group := Nat.mul_pos sizes.kvHeads_pos sizes.group_pos
  obtain ⟨hdvd, rfl⟩ := perHead_eq_some hquery' hkey' hpart
  change chunkLen sizes.kvHeads p 0 ∣ chunkLen (sizes.kvHeads * sizes.group) p 0 at hdvd
  have hq := chunkLen_first hp hpos
  have hk := chunkLen_first hp sizes.kvHeads_pos
  obtain ⟨hqlt, hqle, hqpos⟩ := chunkSize_spec hp hpos
  obtain ⟨hklt, hkle, hkpos⟩ := chunkSize_spec hp sizes.kvHeads_pos
  rw [← hq] at hqlt hqle hqpos
  rw [← hk] at hklt hkle hkpos
  obtain ⟨group, hgroup⟩ := hdvd
  refine repeatsEvenly_of_first hp ?_
  by_contra hne
  rw [hgroup] at hqlt hqle hqpos hne
  have hgrouppos : 0 < group := Nat.pos_of_mul_pos_left hqpos
  -- Fewer query heads share a key head on the rank than in the whole.
  have hlt : group < sizes.group := by
    have hmul : p * (chunkLen sizes.kvHeads p 0 * group - 1) < p * (chunkLen sizes.kvHeads p 0 * sizes.group) := by
      rw [← Nat.mul_assoc p _ sizes.group]
      exact hqlt.trans_le (Nat.mul_le_mul_right _ hkle)
    have hsub := Nat.lt_of_mul_lt_mul_left hmul
    have hle : chunkLen sizes.kvHeads p 0 * group ≤ chunkLen sizes.kvHeads p 0 * sizes.group := by omega
    exact lt_of_le_of_ne (Nat.le_of_mul_le_mul_left hle hkpos) fun heq => hne (heq ▸ rfl)
  -- With one key head for each rank there would be as many.
  have htwo : 2 ≤ chunkLen sizes.kvHeads p 0 := by
    by_contra hone
    have hone : chunkLen sizes.kvHeads p 0 = 1 := by omega
    rw [hone, Nat.mul_one] at hkle
    rw [hone, Nat.one_mul, show sizes.kvHeads = p by omega] at hqle
    exact absurd (Nat.le_of_mul_le_mul_left hqle hp) (Nat.not_le.mpr hlt)
  have hmem : group < chunkLen sizes.kvHeads p 0 * group := by
    have := Nat.mul_le_mul_right group htwo
    omega
  have hget := hsame.2.2 0 sizes.batches_pos group (hgroup.symm ▸ hmem)
  change (localTensors c.inputLayout placements p 0 T .key).map (fun blocks => blocks.get 0
    (group / (chunkLen (sizes.kvHeads * sizes.group) p 0 / chunkLen sizes.kvHeads p 0))) =
    some ((group + 0) / (sizes.kvHeads * sizes.group / sizes.kvHeads)) at hget
  rw [hkey', hgroup, Nat.mul_div_cancel_left _ hkpos, Nat.mul_div_cancel_left _ sizes.kvHeads_pos] at hget
  have hheads : group / group + 0 = (group + 0) / sizes.group := Option.some.inj hget
  rw [Nat.div_self hgrouppos, Nat.add_zero, Nat.add_zero, Nat.div_eq_of_lt hlt] at hheads
  exact absurd hheads Nat.one_ne_zero

/-! ### The strategies -/

variable {version : Version} {s : Sharding}

/-- What a strategy does with the tensors that have the dimensions of the layout, the statistics, and the mask. -/
inductive Plan (c : Call) : Placement → Placement → Placement → Prop
  | whole : Plan c .replicate .replicate .replicate
  | batch (h : 'B' ∈ c.inputLayout) :
    Plan c (.shard (c.inputLayout.idxOf 'B')) (.shard 0) ((attenMaskSharding c 0).getD .replicate)
  | heads (h : 'N' ∈ c.inputLayout) :
    Plan c (.shard (c.inputLayout.idxOf 'N')) (.shard 1) ((attenMaskSharding c 1).getD .replicate)

theorem mem_strategies {replicateStrategy : Sharding} {sharded : ℕ → ℕ → Sharding}
    (h : s ∈ strategies c replicateStrategy sharded) : s = replicateStrategy ∨
      (∀ arg ∈ unusedArgsInSdpa, c.isNone arg = true) ∧ ∃ dim stat, s = sharded dim stat ∧
        Plan c (.shard dim) (.shard stat) ((attenMaskSharding c stat).getD .replicate) := by
  have hmem : s = replicateStrategy ∨ (∀ arg ∈ unusedArgsInSdpa, c.isNone arg = true) ∧
      ('B' ∈ c.inputLayout ∧ s = sharded (c.inputLayout.idxOf 'B') 0 ∨
        'N' ∈ c.inputLayout ∧ s = sharded (c.inputLayout.idxOf 'N') 1) := by
    unfold strategies at h
    split_ifs at h with hunused hB hN hN <;> simp at h <;> simp_all
  rcases hmem with rfl | ⟨hunused, ⟨hB, rfl⟩ | ⟨hN, rfl⟩⟩
  · exact Or.inl rfl
  · exact Or.inr ⟨hunused, _, _, rfl, .batch hB⟩
  · exact Or.inr ⟨hunused, _, _, rfl, .heads hN⟩

theorem isNone_eq_false {arg : Arg} (h : c.tensors arg ≠ none) : c.isNone arg = false := by
  unfold Call.isNone
  rw [Option.isNone_eq_false_iff.mpr (Option.isSome_iff_ne_none.mpr h), Bool.false_and]

theorem replicated_eq {arg : Arg} (h : c.tensors arg ≠ none) : replicated c arg = some .replicate := by
  unfold replicated
  rw [isNone_eq_false h]
  rfl

theorem attenMaskSharding_eq (h : c.tensors .attenMask ≠ none) (dim : ℕ) :
    attenMaskSharding c dim = some ((attenMaskSharding c dim).getD .replicate) := by
  obtain ⟨shape, hshape⟩ := Option.ne_none_iff_exists'.mp h
  unfold attenMaskSharding
  rw [hshape]
  rfl

/-- The tensors that are always given. -/
def required : List Arg :=
  [.query, .key, .value, .dy]

theorem attentionStrategy_lists {results others : List (Option Placement)}
    (hs : s ∈ attentionStrategy results others c) :
    ∃ placement stat mask, Plan c placement stat mask ∧
      (∃ rest, s.1 = some placement :: some stat :: some stat :: rest) ∧
      ∀ arg ∈ [.query, .key, .value, .attenMask], arg ∈ required ∨ c.tensors arg ≠ none →
        listed attentionArgs s arg = some (placementOf placement stat mask arg) := by
  have hmask (h : Arg.attenMask ∈ required ∨ c.tensors .attenMask ≠ none) : c.tensors .attenMask ≠ none :=
    h.resolve_left (by decide)
  rcases mem_strategies hs with rfl | ⟨-, dim, stat, rfl, hplan⟩
  · refine ⟨_, _, _, .whole, ⟨_, rfl⟩, fun arg harg hgiven => ?_⟩
    simp only [List.mem_cons, List.not_mem_nil, or_false] at harg
    rcases harg with rfl | rfl | rfl | rfl
    · rfl
    · rfl
    · rfl
    · exact replicated_eq (hmask hgiven)
  · refine ⟨_, _, _, hplan, ⟨_, rfl⟩, fun arg harg hgiven => ?_⟩
    simp only [List.mem_cons, List.not_mem_nil, or_false] at harg
    rcases harg with rfl | rfl | rfl | rfl
    · rfl
    · rfl
    · rfl
    · exact attenMaskSharding_eq (hmask hgiven) stat

def gradStrategy : Version → Call → List Sharding
  | .v1 => npuFusionAttentionGradStrategy
  | .v3 => npuFusionAttentionGradV3Strategy

def gradOthers (c : Call) : Version → List (Option Placement)
  | .v1 => List.replicate 15 none
  | .v3 => List.replicate 5 none ++ [.seed, .offset].map (replicated c) ++ [none] ++
    [.actualSeqQlen, .actualSeqKvlen].map (replicated c) ++ List.replicate 4 none

theorem gradStrategy_eq (version : Version) (c : Call) :
    gradStrategy version c = attentionGradStrategy (gradOthers c version) c := by
  cases version
  · rfl
  · rfl

def gradTensors : List Arg :=
  [.query, .key, .value, .dy, .attenMask, .softmaxMax, .softmaxSum, .attentionIn]

theorem gradStrategy_lists (hs : s ∈ gradStrategy version c) :
    ∃ placement stat mask, Plan c placement stat mask ∧
      (∃ rest, s.1 = some placement :: some placement :: some placement :: rest) ∧
      (∀ arg ∈ gradTensors, arg ∈ required ∨ c.tensors arg ≠ none →
        listed (attentionGradArgs version) s arg = some (placementOf placement stat mask arg)) ∧
      ∀ arg ∈ gradKwargs version, arg ∉ gradTensors → c.tensors arg ≠ none →
        listed (attentionGradArgs version) s arg = some .replicate := by
  have hgiven {arg : Arg} (hrequired : arg ∉ required) (h : arg ∈ required ∨ c.tensors arg ≠ none) :
      c.tensors arg ≠ none := h.resolve_left hrequired
  rw [gradStrategy_eq] at hs
  rcases mem_strategies hs with rfl | ⟨hunused, dim, stat, rfl, hplan⟩
  · refine ⟨_, _, _, .whole, ⟨_, rfl⟩, fun arg harg h => ?_, fun arg harg hnot h => ?_⟩
    · simp only [gradTensors, List.mem_cons, List.not_mem_nil, or_false] at harg
      rcases harg with rfl | rfl | rfl | rfl | rfl | rfl | rfl | rfl
      · rfl
      · rfl
      · rfl
      · rfl
      · exact replicated_eq (hgiven (by decide) h)
      · exact replicated_eq (hgiven (by decide) h)
      · exact replicated_eq (hgiven (by decide) h)
      · exact replicated_eq (hgiven (by decide) h)
    · cases version <;> simp only [gradKwargs, List.mem_cons, List.not_mem_nil, or_false] at harg <;>
        rcases harg with rfl | rfl | rfl | rfl | rfl | rfl | rfl | rfl | rfl | rfl | rfl | rfl <;>
          exact replicated_eq h
  · refine ⟨_, _, _, hplan, ⟨_, rfl⟩, fun arg harg h => ?_, fun arg harg hnot h => ?_⟩
    · simp only [gradTensors, List.mem_cons, List.not_mem_nil, or_false] at harg
      rcases harg with rfl | rfl | rfl | rfl | rfl | rfl | rfl | rfl
      · rfl
      · rfl
      · rfl
      · rfl
      · exact attenMaskSharding_eq (hgiven (by decide) h) stat
      · exact if_neg (by rw [isNone_eq_false (hgiven (by decide) h)]; exact Bool.false_ne_true)
      · exact if_neg (by rw [isNone_eq_false (hgiven (by decide) h)]; exact Bool.false_ne_true)
      · exact if_neg (by rw [isNone_eq_false (hgiven (by decide) h)]; exact Bool.false_ne_true)
    · have hused : arg ∉ unusedArgsInSdpa := fun hmem =>
        absurd (hunused arg hmem) (by rw [isNone_eq_false h]; exact Bool.false_ne_true)
      cases version <;> simp only [gradKwargs, List.mem_cons, List.not_mem_nil, or_false] at harg <;>
        rcases harg with rfl | rfl | rfl | rfl | rfl | rfl | rfl | rfl | rfl | rfl | rfl | rfl <;>
          first | exact replicated_eq h | exact absurd (by decide) hnot | exact absurd (by decide) hused

/-! ### The derived placements -/

/-- The cut that is derived for a keyword argument. -/
theorem inferPlacement_shard {dim stat : ℕ} (hplan : Plan c (.shard dim) (.shard stat) mask) (arg : Arg)
    (shape : List ℕ) : inferPlacement c arg shape (.shard dim) = .ok (inferSharded arg shape dim stat) := by
  unfold inferPlacement
  rw [if_neg fun h => nomatch h]
  cases hplan with
  | batch hB => rw [if_pos ⟨hB, rfl⟩]
  | heads hN =>
    rw [if_neg, if_pos ⟨hN, rfl⟩]
    rintro ⟨hB, hsame⟩
    have hN' := List.getElem?_idxOf hN
    rw [Placement.shard.inj hsame, List.getElem?_idxOf hB] at hN'
    exact absurd hN' (by decide)

theorem derived_eq {arg : Arg} {shape : List ℕ} (harg : arg ∈ gradKwargs version) (hshape : c.tensors arg = some shape)
    (hout : ∃ rest, s.1 = some placement :: rest) :
    derived version c s arg = (inferPlacement c arg shape placement).toOption := by
  obtain ⟨rest, hout⟩ := hout
  unfold derived inferNpuFusionAttentionGradKwargsSpec
  rw [if_pos harg, hshape, hout]
  show (match some ([placement].mapM (inferPlacement c arg shape)) with
    | some (.ok placements) => placements.head?
    | _ => none) = _
  rw [List.mapM_cons, List.mapM_nil]
  cases inferPlacement c arg shape placement with
  | error e => rfl
  | ok placement' => rfl

theorem cuts_iff (c : Call) (dim : Char) (hout : ∃ rest, s.1 = some placement :: rest) :
    Cuts c dim s ↔ dim ∈ c.inputLayout ∧ placement = .shard (c.inputLayout.idxOf dim) := by
  obtain ⟨rest, hout⟩ := hout
  unfold Cuts
  rw [hout, List.head?_cons, Option.some.injEq, Option.some.injEq]

theorem idxOf_ne (hB : 'B' ∈ c.inputLayout) (hN : 'N' ∈ c.inputLayout) :
    c.inputLayout.idxOf 'B' ≠ c.inputLayout.idxOf 'N' := by
  intro hsame
  have hN' := List.getElem?_idxOf hN
  rw [← hsame, List.getElem?_idxOf hB] at hN'
  exact absurd hN' (by decide)

/-- For a cut, agreement comes down to the mask. -/
theorem agrees_shard_iff {dim stat : ℕ}
    (hplan : Plan c (.shard dim) (.shard stat) ((attenMaskSharding c stat).getD .replicate))
    (hout : ∃ rest, s.1 = some (.shard dim) :: rest)
    (hlisted : ∀ arg ∈ gradTensors, arg ∈ required ∨ c.tensors arg ≠ none → listed (attentionGradArgs version) s arg =
      some (placementOf (.shard dim) (.shard stat) ((attenMaskSharding c stat).getD .replicate) arg))
    (hothers : ∀ arg ∈ gradKwargs version, arg ∉ gradTensors → c.tensors arg ≠ none →
      listed (attentionGradArgs version) s arg = some .replicate) :
    Agrees version c s ↔ ∀ shape, c.tensors .attenMask = some shape → shape.length = 4 → shape.getD stat 1 ≠ 1 →
      dim = stat := by
  have hderived {arg : Arg} {shape : List ℕ} (harg : arg ∈ gradKwargs version) (hshape : c.tensors arg = some shape) :
      derived version c s arg = some (inferSharded arg shape dim stat) := by
    rw [derived_eq harg hshape hout, inferPlacement_shard hplan]
    rfl
  have hmaskarg : Arg.attenMask ∈ gradKwargs version := by
    cases version <;> decide
  have hmask {shape : List ℕ} (hshape : c.tensors .attenMask = some shape) :
      derived version c s .attenMask = listed (attentionGradArgs version) s .attenMask ↔
        (shape.length = 4 → shape.getD stat 1 ≠ 1 → dim = stat) := by
    have hgiven : c.tensors .attenMask ≠ none := hshape ▸ Option.some_ne_none shape
    rw [hderived hmaskarg hshape, hlisted .attenMask (by decide) (Or.inr hgiven), Option.some.injEq]
    show (if _ then Placement.shard dim else _) = (attenMaskSharding c stat).getD .replicate ↔ _
    unfold attenMaskSharding
    rw [hshape, Option.map_some, Option.getD_some]
    by_cases hsharded : shape.length = 4 ∧ shape.getD stat 1 ≠ 1
    · rw [if_pos hsharded, if_pos hsharded, Placement.shard.injEq]
      exact ⟨fun h _ _ => h, fun h => h hsharded.1 hsharded.2⟩
    · rw [if_neg hsharded, if_neg hsharded]
      exact iff_of_true rfl fun h₁ h₂ => absurd ⟨h₁, h₂⟩ hsharded
  constructor
  · intro h shape hshape
    exact (hmask hshape).mp (h _ hmaskarg (by rw [hshape]; exact Option.some_ne_none _))
  · intro h arg harg hgiven
    obtain ⟨shape, hshape⟩ := Option.ne_none_iff_exists'.mp hgiven
    by_cases htensor : arg ∈ gradTensors
    · by_cases hsame : arg = .attenMask
      · subst hsame
        exact (hmask hshape).mpr (h shape hshape)
      · rw [hderived harg hshape, hlisted arg htensor (Or.inr hgiven), Option.some.injEq]
        have hnot : arg ∉ required := by
          cases version <;> revert harg <;> cases arg <;> decide
        cases arg <;> first | rfl | exact absurd rfl hsame | exact absurd (by decide) hnot |
          exact absurd htensor (by decide)
    · rw [hderived harg hshape, hothers arg harg htensor hgiven, Option.some.injEq]
      cases arg <;> first | rfl | exact absurd (by decide) htensor

/-- The two descriptions differ for masks only. -/
theorem agrees_iff (hs : s ∈ gradStrategy version c) :
    Agrees version c s ↔ (Cuts c 'B' s → MaskAgrees c 'B' 0) ∧ (Cuts c 'N' s → MaskAgrees c 'N' 1) := by
  obtain ⟨placement, stat, mask, hplan, ⟨rest, hout⟩, hlisted, hothers⟩ := gradStrategy_lists hs
  have hhead : ∃ rest, s.1 = some placement :: rest := ⟨_, hout⟩
  rw [cuts_iff c 'B' hhead, cuts_iff c 'N' hhead]
  cases hplan with
  | whole =>
    refine iff_of_true ?_ ⟨fun h => (nomatch h.2), fun h => (nomatch h.2)⟩
    intro arg harg hgiven
    obtain ⟨shape, hshape⟩ := Option.ne_none_iff_exists'.mp hgiven
    rw [derived_eq harg hshape hhead]
    by_cases htensor : arg ∈ gradTensors
    · rw [hlisted arg htensor (Or.inr hgiven)]
      cases arg <;> rfl
    · exact (hothers arg harg htensor hgiven).symm
  | batch hB =>
    rw [agrees_shard_iff (.batch hB) hhead hlisted hothers]
    exact ⟨fun h => ⟨fun _ => h, fun hN => absurd (Placement.shard.inj hN.2) (idxOf_ne hB hN.1)⟩,
      fun h => h.1 ⟨hB, rfl⟩⟩
  | heads hN =>
    rw [agrees_shard_iff (.heads hN) hhead hlisted hothers]
    exact ⟨fun h => ⟨fun hB => absurd (Placement.shard.inj hB.2).symm (idxOf_ne hB.1 hN), fun _ => h⟩,
      fun h => h.2 ⟨hN, rfl⟩⟩

/-! ### Soundness -/

theorem Plan.windows (hplan : Plan c placement stat mask) (hp : 0 < p)
    (heven : 'N' ∈ c.inputLayout → placement = .shard (c.inputLayout.idxOf 'N') →
      RepeatsEvenly sizes.kvHeads sizes.group p) : Windows c sizes p placement stat mask := by
  cases hplan with
  | whole => exact windows_replicate
  | batch hB => exact windows_batch hB
  | heads hN => exact windows_heads hN hp (heven hN rfl)

theorem Fits.mono {args args' : List Arg} (h : Fits c sizes args T) (hsub : args ⊆ args') : Fits c sizes args' T :=
  ⟨h.query, h.key, fun arg blocks hT => ⟨hsub (h.fits arg blocks hT).1, (h.fits arg blocks hT).2⟩⟩

theorem Fits.given {args : List Arg} (h : Fits c sizes args T) {arg : Arg} (hT : T arg ≠ none) :
    arg ∈ args ∧ (arg ∈ required ∨ c.tensors arg ≠ none) := by
  obtain ⟨blocks, hblocks⟩ := Option.ne_none_iff_exists'.mp hT
  exact ⟨(h.fits arg blocks hblocks).1, (h.fits arg blocks hblocks).2.1⟩

theorem attentionSound_iff (hs : s ∈ npuFusionAttentionStrategy c ++ npuFusionAttentionV3Strategy c) (hp : 0 < p)
    (haccepted : Accepted c sizes p s) :
    AttentionSound c sizes p s ↔ (Cuts c 'N' s → RepeatsEvenly sizes.kvHeads sizes.group p) := by
  obtain ⟨placement, stat, mask, hplan, ⟨rest, hout⟩, hlisted⟩ : ∃ placement stat mask, Plan c placement stat mask ∧
      (∃ rest, s.1 = some placement :: some stat :: some stat :: rest) ∧
      ∀ arg ∈ [.query, .key, .value, .attenMask], arg ∈ required ∨ c.tensors arg ≠ none →
        listed attentionArgs s arg = some (placementOf placement stat mask arg) := by
    rcases List.mem_append.mp hs with hs | hs
    · exact attentionStrategy_lists hs
    · exact attentionStrategy_lists hs
  have hcuts := cuts_iff c 'N' ⟨_, hout⟩
  constructor
  · intro h hcut
    obtain ⟨hN, rfl⟩ := hcuts.mp hcut
    refine repeatsEvenly_of_shards hp (haccepted.2 hcut) hN (hlisted .query (by decide) (Or.inl (by decide)))
      (hlisted .key (by decide) (Or.inl (by decide))) fun T hfits => ?_
    refine h ℕ (Option ℕ) T (hfits.mono (by decide)) _ (c.inputLayout, _) ?_
    rw [hout]
    exact List.mem_cons_self
  · intro h β γ T hfits f out hmem
    have hwindows : Windows c sizes p placement stat mask :=
      hplan.windows hp fun hN hplacement => h (hcuts.mpr ⟨hN, hplacement⟩)
    have hshards := (shards_of_windows hwindows hfits fun arg hT =>
      hlisted arg (hfits.given hT).1 (hfits.given hT).2).1 f
    rw [hout] at hmem
    simp only [List.zip_cons_cons, List.zip_nil_left, List.mem_cons, List.not_mem_nil, or_false] at hmem
    rcases hmem with rfl | rfl | rfl
    · exact hshards _ (Or.inl rfl)
    · exact hshards _ (Or.inr rfl)
    · exact hshards _ (Or.inr rfl)

theorem attentionGradSound_iff (hs : s ∈ gradStrategy version c) (hp : 0 < p) (haccepted : Accepted c sizes p s) :
    AttentionGradSound version c sizes p s ↔ (Cuts c 'B' s → MaskAgrees c 'B' 0) ∧
      (Cuts c 'N' s → MaskAgrees c 'N' 1 ∧ RepeatsEvenly sizes.kvHeads sizes.group p) := by
  have hagrees := agrees_iff hs
  obtain ⟨placement, stat, mask, hplan, ⟨rest, hout⟩, hlisted, hothers⟩ := gradStrategy_lists hs
  have hcuts := cuts_iff c 'N' ⟨_, hout⟩
  have hhead : s.1.head?.join = some placement := by
    rw [hout]
    rfl
  have hderived (hagrees : Agrees version c s) (arg : Arg) (harg : arg ∈ gradTensors)
      (hgiven : arg ∈ required ∨ c.tensors arg ≠ none) :
      derived version c s arg = some (placementOf placement stat mask arg) := by
    rw [← hlisted arg harg hgiven]
    by_cases hkwarg : arg ∈ gradKwargs version
    · refine hagrees arg hkwarg (hgiven.resolve_left ?_)
      cases version <;> revert hkwarg <;> cases arg <;> decide
    · unfold derived
      rw [if_neg hkwarg]
  constructor
  · rintro ⟨hagree, h⟩
    refine ⟨(hagrees.mp hagree).1, fun hcut => ⟨(hagrees.mp hagree).2 hcut, ?_⟩⟩
    obtain ⟨hN, rfl⟩ := hcuts.mp hcut
    refine repeatsEvenly_of_shards hp (haccepted.2 hcut) hN (hderived hagree .query (by decide)
      (Or.inl (by decide))) (hderived hagree .key (by decide) (Or.inl (by decide))) fun T hfits => ?_
    rw [← hhead]
    exact (h ℕ (Option ℕ) T (hfits.mono (by decide))).1 _
  · rintro ⟨hbatch, hheads⟩
    have hagree : Agrees version c s := hagrees.mpr ⟨hbatch, fun hcut => (hheads hcut).1⟩
    refine ⟨hagree, fun β γ T hfits => ?_⟩
    have hwindows : Windows c sizes p placement stat mask :=
      hplan.windows hp fun hN hplacement => (hheads (hcuts.mpr ⟨hN, hplacement⟩)).2
    obtain ⟨hperHead, hperGroup⟩ := shards_of_windows (γ := γ) hwindows hfits fun arg hT =>
      hderived hagree arg (hfits.given hT).1 (hfits.given hT).2
    constructor
    · intro f
      rw [hhead]
      exact hperHead f (c.inputLayout, placement) (Or.inl rfl)
    · intro f out hmem
      rw [hout] at hmem
      simp only [List.drop_succ_cons, List.drop_zero, List.take_succ_cons, List.take_zero, List.mem_cons,
        List.not_mem_nil, or_false, or_self] at hmem
      rw [hmem]
      exact hperGroup f

/-- When the strategies are sound. -/
theorem attentionSharding_iff (c : Call) (sizes : Sizes) {p : ℕ} (hp : 0 < p) :
    (∀ s ∈ npuFusionAttentionStrategy c ++ npuFusionAttentionV3Strategy c, Accepted c sizes p s →
      (AttentionSound c sizes p s ↔ (Cuts c 'N' s → RepeatsEvenly sizes.kvHeads sizes.group p))) ∧
      ∀ version, ∀ s ∈ gradStrategy version c, Accepted c sizes p s →
        (AttentionGradSound version c sizes p s ↔ (Cuts c 'B' s → MaskAgrees c 'B' 0) ∧
          (Cuts c 'N' s → MaskAgrees c 'N' 1 ∧ RepeatsEvenly sizes.kvHeads sizes.group p)) :=
  ⟨fun _ hs haccepted => attentionSound_iff hs hp haccepted,
    fun _ _ hs haccepted => attentionGradSound_iff hs hp haccepted⟩

/-- A call with a mask. -/
def maskedCall (inputLayout : Text) (mask : List ℕ) : Call where
  inputLayout := inputLayout
  tensors arg := if arg = .attenMask then some mask else none
  given _ := false
  keepProb := 1

theorem gradStrategy_ne_nil (inputLayout : Text) (mask : List ℕ) :
    gradStrategy .v1 (maskedCall inputLayout mask) ≠ [] := by
  show npuFusionAttentionGradStrategy _ ≠ []
  unfold npuFusionAttentionGradStrategy attentionGradStrategy strategies
  split_ifs <;> simp

/-- The heads of BNSD, cut for two ranks. -/
theorem attentionSharding_iff_bnsd :
    let c := maskedCall ['B', 'N', 'S', 'D'] [2, 4, 8, 8]
    let sizes : Sizes := ⟨2, 2, 2, by decide, by decide, by decide⟩
    let s := (gradStrategy .v1 c).getLast (gradStrategy_ne_nil _ _)
    AttentionGradSound .v1 c sizes 2 s ↔ (Cuts c 'B' s → MaskAgrees c 'B' 0) ∧
      (Cuts c 'N' s → MaskAgrees c 'N' 1 ∧ RepeatsEvenly 2 2 2) :=
  (attentionSharding_iff (maskedCall ['B', 'N', 'S', 'D'] [2, 4, 8, 8]) ⟨2, 2, 2, by decide, by decide, by decide⟩
    (p := 2) (by decide)).2 .v1 _ (List.getLast_mem _) ⟨fun _ => le_rfl, fun _ => le_rfl⟩

/-- In the layout SBH the batch of the mask is taken for its second dimension. -/
theorem not_attentionSharding :
    ¬∀ (c : Call) (sizes : Sizes) (p : ℕ), 0 < p → ∀ s ∈ gradStrategy .v1 c, Accepted c sizes p s →
      AttentionGradSound .v1 c sizes p s := by
  intro h
  have hmem := List.getLast_mem (gradStrategy_ne_nil ['S', 'B', 'H'] [4, 1, 8, 8])
  have hsound := h _ ⟨4, 2, 2, by decide, by decide, by decide⟩ 2 (by decide) _ hmem
    ⟨fun _ => by decide, fun _ => le_rfl⟩
  have hcuts : Cuts (maskedCall ['S', 'B', 'H'] [4, 1, 8, 8]) 'B'
      ((gradStrategy .v1 (maskedCall ['S', 'B', 'H'] [4, 1, 8, 8])).getLast (gradStrategy_ne_nil _ _)) :=
    ⟨by decide, rfl⟩
  have hdim := ((agrees_iff hmem).mp hsound.1).1 hcuts [4, 1, 8, 8] rfl rfl (by decide)
  exact absurd hdim (by decide)

end TorchNpu.DTensor.Attention

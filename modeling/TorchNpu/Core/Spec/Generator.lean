/-
  Random numbers with and without graphs.

  A replay reads exactly what its draws would have read eagerly, and leaves the generator where these would have left it;
  hence nothing is read twice as long as the generator is not set.  `Laid` says where the kernels of a graph stand in it:
  the captured offset of each is the sum of the increments before it.

  Two things are asked of a run.  A captured draw has to be of less than `2 ^ 32 - 3` numbers: the check of `increase`
  against an overflow wraps around itself for more.  And the offset must not be set during a capture, which `set_state`
  allows.
-/
import TorchNpu.Core.Generator
import TorchNpu.Lib.Spans
import Mathlib.Tactic.Linarith

namespace TorchNpu.Core.Generator

variable {s t : NPUGeneratorState} {w w' : World} {n b : UInt64} {o total : ℕ} {ks : List CapturedKernel}

/-! ### Increments -/

def rounded (n : ℕ) : ℕ :=
  (n + 3) / 4 * 4

theorem toNat_roundToFour (h : n.toNat + 3 < 2 ^ 64) : (roundToFour n).toNat = rounded n.toNat := by
  have hadd : (n + 3).toNat = n.toNat + 3 := by
    rw [UInt64.toNat_add]
    exact Nat.mod_eq_of_lt h
  unfold roundToFour rounded
  rw [UInt64.toNat_mul, UInt64.toNat_div, hadd]
  show (n.toNat + 3) / 4 * 4 % 2 ^ 64 = _
  omega

theorem roundToFour_mod (n : UInt64) : (roundToFour n).toNat % 4 = 0 := by
  unfold roundToFour
  rw [UInt64.toNat_mul]
  show _ * 4 % 2 ^ 64 % 4 = 0
  omega

theorem le_rounded (n : ℕ) : n ≤ rounded n ∧ rounded n ≤ n + 3 ∧ rounded n % 4 = 0 := by
  unfold rounded
  omega

/-! ### Kernels of a graph -/

/-- From the offset `o` on, each kernel stands where the increments before it end; the last one ends at `total`. -/
def Laid : ℕ → List CapturedKernel → ℕ → Prop
  | o, [], total => o = total
  | o, k :: ks, total => k.offsetIntragraph.toNat = o ∧ k.increment.toNat + 3 < 2 ^ 32 ∧
      Laid (o + rounded k.increment.toNat) ks total

theorem Laid.concat (h : Laid o ks total) (hn : n.toNat + 3 < 2 ^ 32) {k : CapturedKernel}
    (hk : k = ⟨k.offsetIntragraph, n⟩) (ho : k.offsetIntragraph.toNat = total) :
    Laid o (ks ++ [k]) (total + rounded n.toNat) := by
  induction ks generalizing o with
  | nil =>
    obtain rfl : o = total := h
    rw [hk]
    exact ⟨ho, hn, rfl⟩
  | cons k' ks ih => exact ⟨h.1, h.2.1, ih h.2.2⟩

theorem Laid.le (h : Laid o ks total) : o ≤ total := by
  induction ks generalizing o with
  | nil => exact le_of_eq h
  | cons k ks ih => exact (Nat.le_add_right _ _).trans (ih h.2.2)

theorem Laid.mod (h : Laid o ks total) (ho : o % 4 = 0) : total % 4 = 0 := by
  induction ks generalizing o with
  | nil =>
    obtain rfl : o = total := h
    exact ho
  | cons k ks ih =>
    have hround := le_rounded k.increment.toNat
    exact ih h.2.2 (by omega)

/-- What the kernels of a graph read, from the offset `b` of the tensor on. -/
def reads (seed b : UInt64) (ks : List CapturedKernel) : List Draw :=
  ks.flatMap fun k => draws seed (b + k.offsetIntragraph.toUInt64) k.increment

def Draw.start (d : Draw) : ℕ := d.offset.toNat

def Draw.size (d : Draw) : ℕ := d.increment.toNat

theorem spans_draws (seed : UInt64) {offset : UInt64} {hi : ℕ} (h : offset.toNat + n.toNat ≤ hi) :
    Spans Draw.start Draw.size offset.toNat hi (draws seed offset n) ∧ ∀ d ∈ draws seed offset n, d.seed = seed := by
  unfold draws
  split_ifs with hn
  · exact ⟨.nil (by omega), by simp⟩
  · exact ⟨.singleton le_rfl h, by simp⟩

theorem toUInt64_offsetIntragraph {k : CapturedKernel} (h : k.offsetIntragraph.toNat = o) :
    k.offsetIntragraph.toUInt64 = UInt64.ofNat o := by
  apply UInt64.toNat_inj.mp
  have hlt := k.offsetIntragraph.toNat_lt
  rw [UInt64.toNat_ofNat_of_lt' (by show o < 2 ^ 64; omega)]
  exact h

/-- Kernels that stand one after the other read one span after the other. -/
theorem Laid.spans (seed : UInt64) (h : Laid o ks total) (hfit : b.toNat + total < 2 ^ 64) :
    Spans Draw.start Draw.size (b.toNat + o) (b.toNat + total) (reads seed b ks) ∧
      ∀ d ∈ reads seed b ks, d.seed = seed := by
  induction ks generalizing o with
  | nil =>
    obtain rfl : o = total := h
    exact ⟨.nil le_rfl, by simp [reads]⟩
  | cons k ks ih =>
    obtain ⟨ho, hn, h⟩ := h
    have hle := h.le
    have hround := le_rounded k.increment.toNat
    obtain ⟨hspans, hseed⟩ := ih h
    have hoffset : (b + k.offsetIntragraph.toUInt64).toNat = b.toNat + o := by
      rw [toUInt64_offsetIntragraph ho, UInt64.toNat_add, UInt64.toNat_ofNat_of_lt' (by show o < 2 ^ 64; omega),
        Nat.mod_eq_of_lt (by omega)]
    have hfirst := spans_draws seed (show (b + k.offsetIntragraph.toUInt64).toNat + k.increment.toNat ≤
      b.toNat + (o + rounded k.increment.toNat) by omega)
    rw [hoffset] at hfirst
    unfold reads
    rw [List.flatMap_cons]
    refine ⟨hfirst.1.append hspans, fun d hd => ?_⟩
    rcases List.mem_append.mp hd with hd | hd
    · exact hfirst.2 d hd
    · exact hseed d hd

/-! ### Single calls -/

/-- The state after a draw, or a replay, outside a capture. -/
def NPUGeneratorState.advance (s : NPUGeneratorState) (n : UInt64) : NPUGeneratorState :=
  { s with philoxOffsetPerThread := s.philoxOffsetPerThread + roundToFour n }

theorem mod_four_eq_zero_iff {n : UInt64} : n % 4 = 0 ↔ n.toNat % 4 = 0 := by
  rw [← UInt64.toNat_inj, UInt64.toNat_mod]
  rfl

theorem increase_false : s.increase false n =
    if s.capturing = false ∧ s.philoxOffsetPerThread.toNat % 4 = 0 then some (s.advance n) else none := by
  unfold NPUGeneratorState.increase
  simp [mod_four_eq_zero_iff, NPUGeneratorState.advance]

/-- A kernel that is launched outside a capture, and one that is captured. -/
theorem philoxNpuState_eq_some (h : w.philoxNpuState n = some w') :
    w.capture = none ∧ w' = { w with
      gen := w.gen.advance n, drawn := w.drawn ++ draws w.gen.seed w.gen.philoxOffsetPerThread n } ∨
    ∃ g, w.capture = some g ∧
      w.gen.offsetIntragraph.toUInt64 ≤ UInt32.toUInt64 0xffffffff - roundToFour n ∧
      w' = { w.setGraph g { w.graphs g with kernels := (w.graphs g).kernels ++ [⟨w.gen.offsetIntragraph, n⟩] } with
        gen := { w.gen with offsetIntragraph := (w.gen.offsetIntragraph.toUInt64 + roundToFour n).toUInt32 } } := by
  unfold World.philoxNpuState at h
  cases hc : w.capture with
  | none =>
    rw [hc, Option.isSome_none, increase_false] at h
    split_ifs at h
    · left
      exact ⟨rfl, (Option.some_inj.mp h).symm⟩
    · cases h
  | some g =>
    right
    rw [hc, Option.isSome_some] at h
    unfold NPUGeneratorState.increase at h
    simp only [ite_true] at h
    split_ifs at h with hcheck
    · exact ⟨g, rfl, hcheck.2.2, (Option.some_inj.mp h).symm⟩
    · cases h

theorem idle_of_replay {g : GraphId} (h : w.replay g = some w') :
    w.capture = none ∧ (w.graphs g).hasGraphExec = true := by
  unfold World.replay NPUGeneratorState.replayPrologue at h
  split_ifs at h with hexec hc
  · cases h
  all_goals exact ⟨by simpa using hc, hexec⟩

/-- A graph whose draws ask for nothing. -/
theorem replay_zero {g : GraphId} (hidle : w.capture = none) (hexec : (w.graphs g).hasGraphExec = true)
    (hzero : (w.graphs g).wholegraphIncrement = 0) : w.replay g = some { w with
      drawn := w.drawn ++ reads w.gen.seedExtragraph w.gen.offsetExtragraph (w.graphs g).kernels } := by
  unfold World.replay NPUGeneratorState.replayPrologue
  rw [if_pos hexec, hidle, Option.isSome_none, if_neg Bool.false_ne_true, if_pos hzero]
  rfl

/-- What any other replay does. -/
theorem replay_eq {g : GraphId} (hidle : w.capture = none) (hexec : (w.graphs g).hasGraphExec = true)
    (hcap : w.gen.capturing = false) (halign : w.gen.philoxOffsetPerThread.toNat % 4 = 0)
    (hzero : (w.graphs g).wholegraphIncrement ≠ 0) :
    w.replay g = some { w with
      gen := { w.gen with seedExtragraph := w.gen.seed, offsetExtragraph := w.gen.philoxOffsetPerThread }.advance
        (w.graphs g).wholegraphIncrement
      drawn := w.drawn ++ reads w.gen.seed w.gen.philoxOffsetPerThread (w.graphs g).kernels } := by
  unfold World.replay NPUGeneratorState.replayPrologue
  rw [if_pos hexec, hidle, Option.isSome_none, if_neg Bool.false_ne_true, if_neg hzero, increase_false,
    if_pos ⟨hcap, halign⟩]
  rfl

theorem setPhiloxOffset_false {offset : UInt64} (h : s.setPhiloxOffset false offset = some t) :
    offset.toNat % 4 = 0 ∧ t = { s with philoxOffsetPerThread := offset } := by
  unfold NPUGeneratorState.setPhiloxOffset at h
  simp only [Bool.false_eq_true, if_false] at h
  split_ifs at h with hmod
  exact ⟨mod_four_eq_zero_iff.mp hmod, (Option.some_inj.mp h).symm⟩

/-! ### Every run -/

/-- The offset is a multiple of four, and the state is told of every capture. -/
structure Ready (w : World) : Prop where
  aligned : w.gen.philoxOffsetPerThread.toNat % 4 = 0
  capturing : w.gen.capturing = w.capture.isSome

theorem aligned_advance (h : s.philoxOffsetPerThread.toNat % 4 = 0) (n : UInt64) :
    (s.advance n).philoxOffsetPerThread.toNat % 4 = 0 := by
  have hround := roundToFour_mod n
  unfold NPUGeneratorState.advance
  rw [UInt64.toNat_add]
  show _ % 2 ^ 64 % 4 = 0
  omega

theorem Ready.not_capturing (h : Ready w) (hidle : w.capture = none) : w.gen.capturing = false := by
  rw [h.capturing, hidle]
  rfl

theorem Ready.philoxNpuState (h : Ready w) (hnext : w.philoxNpuState n = some w') : Ready w' := by
  rcases philoxNpuState_eq_some hnext with ⟨-, rfl⟩ | ⟨g, hg, -, rfl⟩
  · exact ⟨aligned_advance h.aligned n, h.capturing⟩
  · exact ⟨h.aligned, h.capturing⟩

/-- The generator is set, in a capture or outside of one. -/
theorem Ready.set {newState : List UInt8} {gen : NPUGeneratorState} (h : Ready w)
    (hset : w.gen.setState w.capture.isSome newState = some gen) : Ready { w with gen } := by
  unfold NPUGeneratorState.setState at hset
  split_ifs at hset
  obtain ⟨mid, hmid, hset⟩ := Option.bind_eq_some_iff.mp hset
  unfold NPUGeneratorState.setCurrentSeed at hmid
  cases hc : w.capture with
  | none =>
    rw [hc, Option.isSome_none] at hmid hset
    obtain rfl := Option.some_inj.mp hmid
    obtain ⟨hmod, rfl⟩ := setPhiloxOffset_false hset
    exact ⟨hmod, h.capturing.trans (congrArg _ hc)⟩
  | some g =>
    rw [hc, Option.isSome_some] at hmid hset
    unfold NPUGeneratorState.setPhiloxOffset at hset
    simp only [if_true] at hmid hset
    split_ifs at hmid
    obtain rfl := Option.some_inj.mp hmid
    split_ifs at hset
    obtain rfl := Option.some_inj.mp hset
    exact ⟨h.aligned, h.capturing.trans (congrArg _ hc)⟩

theorem Ready.next {call : GeneratorCall} (h : Ready w) (hnext : w.next call = some w') : Ready w' := by
  cases call with
  | philoxNpuState n => exact h.philoxNpuState hnext
  | philoxEngineInputs n =>
    change w.philoxEngineInputs n = some w' at hnext
    unfold World.philoxEngineInputs at hnext
    split_ifs at hnext
    exact h.philoxNpuState hnext
  | captureBegin g =>
    change w.captureBegin g = some w' at hnext
    unfold World.captureBegin at hnext
    split_ifs at hnext
    obtain rfl := Option.some_inj.mp hnext
    exact ⟨h.aligned, rfl⟩
  | captureEnd =>
    obtain ⟨g, hg, rfl⟩ := Option.map_eq_some_iff.mp hnext
    exact ⟨h.aligned, rfl⟩
  | replay g =>
    obtain ⟨hidle, hexec⟩ := idle_of_replay hnext
    by_cases hzero : (w.graphs g).wholegraphIncrement = 0
    · obtain rfl := Option.some_inj.mp ((replay_zero hidle hexec hzero).symm.trans hnext)
      exact ⟨h.aligned, h.capturing⟩
    · obtain rfl := Option.some_inj.mp
        ((replay_eq hidle hexec (h.not_capturing hidle) h.aligned hzero).symm.trans hnext)
      exact ⟨aligned_advance h.aligned _, h.capturing⟩
  | reset g =>
    obtain rfl := Option.some_inj.mp hnext
    exact ⟨h.aligned, h.capturing⟩
  | setCurrentSeed seed =>
    obtain ⟨gen, hgen, rfl⟩ := Option.map_eq_some_iff.mp hnext
    unfold NPUGeneratorState.setCurrentSeed at hgen
    split_ifs at hgen
    all_goals obtain rfl := Option.some_inj.mp hgen
    · exact ⟨h.aligned, h.capturing⟩
    · exact ⟨rfl, h.capturing⟩
  | setOffset offset =>
    change w.setOffset offset = some w' at hnext
    unfold World.setOffset at hnext
    split_ifs at hnext with hc
    obtain ⟨gen, hgen, rfl⟩ := Option.map_eq_some_iff.mp hnext
    obtain ⟨hmod, rfl⟩ := setPhiloxOffset_false hgen
    exact ⟨hmod, h.capturing⟩
  | setState newState =>
    obtain ⟨gen, hgen, rfl⟩ := Option.map_eq_some_iff.mp hnext
    exact h.set hgen

/-! ### What graphs have recorded -/

/-- A captured draw is of less than `2 ^ 32 - 3` numbers, and the generator is not set in a capture. -/
def Regular (w : World) : GeneratorCall → Prop
  | .philoxNpuState n => w.capture = none ∨ n.toNat + 3 < 2 ^ 32
  | .setState _ => w.capture = none
  | _ => True

instance decidableRegular (w : World) : ∀ call, Decidable (Regular w call)
  | .philoxNpuState n => inferInstanceAs (Decidable (w.capture = none ∨ n.toNat + 3 < 2 ^ 32))
  | .setState _ => inferInstanceAs (Decidable (w.capture = none))
  | .philoxEngineInputs _ | .captureBegin _ | .captureEnd | .replay _ | .reset _ | .setCurrentSeed _ | .setOffset _ =>
    isTrue trivial

structure Recorded (w : World) : Prop where
  captured : ∀ g, w.capture = some g → (w.graphs g).hasGraphExec = false ∧
    Laid 0 (w.graphs g).kernels w.gen.offsetIntragraph.toNat
  replayable : ∀ g, (w.graphs g).hasGraphExec = true → (w.graphs g).wholegraphIncrement.toNat < 2 ^ 32 ∧
    Laid 0 (w.graphs g).kernels (w.graphs g).wholegraphIncrement.toNat

theorem Recorded.congr (h : Recorded w) (hcapture : w'.capture = w.capture) (hgraphs : w'.graphs = w.graphs)
    (hoffset : w'.capture = none ∨ w'.gen.offsetIntragraph = w.gen.offsetIntragraph) : Recorded w' := by
  refine ⟨fun g hg => ?_, fun g hg => ?_⟩
  · rcases hoffset with hnone | hoffset
    · exact absurd (hnone.symm.trans hg) nofun
    · rw [hgraphs, hoffset]
      exact h.captured g (hcapture ▸ hg)
  · rw [hgraphs] at hg ⊢
    exact h.replayable g hg

/-- One graph is another one. -/
theorem Recorded.setGraph {g : GraphId} {graph : NPUGraph} {capture : Option GraphId} (h : Recorded w)
    (hcaptured : ∀ g', capture = some g' → g' = g ∧ graph.hasGraphExec = false ∧
      Laid 0 graph.kernels s.offsetIntragraph.toNat)
    (hreplayable : graph.hasGraphExec = true → graph.wholegraphIncrement.toNat < 2 ^ 32 ∧
      Laid 0 graph.kernels graph.wholegraphIncrement.toNat) :
    Recorded { w.setGraph g graph with gen := s, capture } := by
  refine ⟨fun g' hg' => ?_, fun g' hg' => ?_⟩
  · obtain ⟨rfl, hrest⟩ := hcaptured g' hg'
    simpa [World.setGraph] using hrest
  · by_cases hgg : g' = g
    · subst hgg
      simp only [World.setGraph, Function.update_self] at hg' ⊢
      exact hreplayable hg'
    · simp only [World.setGraph, Function.update_of_ne hgg] at hg' ⊢
      exact h.replayable g' hg'

theorem Recorded.philoxNpuState (h : Recorded w) (hn : w.capture = none ∨ n.toNat + 3 < 2 ^ 32)
    (hnext : w.philoxNpuState n = some w') : Recorded w' := by
  rcases philoxNpuState_eq_some hnext with ⟨hidle, rfl⟩ | ⟨g, hg, hcheck, rfl⟩
  · exact h.congr rfl rfl (.inl hidle)
  · have hn : n.toNat + 3 < 2 ^ 32 := hn.resolve_left (by simp [hg])
    have hround := le_rounded n.toNat
    have hinc : (roundToFour n).toNat = rounded n.toNat := toNat_roundToFour (by omega)
    obtain ⟨hexec, hlaid⟩ := h.captured g hg
    -- the check is the one that is meant, for the increment is no more than the greatest offset
    have hcheck' : w.gen.offsetIntragraph.toNat + rounded n.toNat < 2 ^ 32 := by
      rw [UInt64.le_iff_toNat_le, UInt64.toNat_sub_of_le _ _ (by
        rw [UInt64.le_iff_toNat_le, hinc]
        show _ ≤ 2 ^ 32 - 1
        omega), hinc] at hcheck
      change w.gen.offsetIntragraph.toNat ≤ 2 ^ 32 - 1 - _ at hcheck
      omega
    have hoffset : (w.gen.offsetIntragraph.toUInt64 + roundToFour n).toUInt32.toNat =
        w.gen.offsetIntragraph.toNat + rounded n.toNat := by
      rw [UInt64.toNat_toUInt32, UInt64.toNat_add, hinc]
      show (w.gen.offsetIntragraph.toNat + _) % 2 ^ 64 % 2 ^ 32 = _
      omega
    refine h.setGraph (fun g' hg' => ⟨Option.some_inj.mp (hg'.symm.trans hg), hexec, ?_⟩) fun hex => ?_
    · show Laid 0 _ (UInt32.toNat _)
      rw [hoffset]
      exact hlaid.concat hn rfl rfl
    · exact absurd (hexec.symm.trans hex) (by decide)

theorem Recorded.next {call : GeneratorCall} (R : Ready w) (h : Recorded w) (hregular : Regular w call)
    (hnext : w.next call = some w') : Recorded w' := by
  cases call with
  | philoxNpuState n => exact h.philoxNpuState hregular hnext
  | philoxEngineInputs n =>
    change w.philoxEngineInputs n = some w' at hnext
    unfold World.philoxEngineInputs at hnext
    split_ifs at hnext with hc
    exact h.philoxNpuState (.inl (by simpa using hc)) hnext
  | captureBegin g =>
    change w.captureBegin g = some w' at hnext
    unfold World.captureBegin at hnext
    split_ifs at hnext
    obtain rfl := Option.some_inj.mp hnext
    exact h.setGraph (fun g' hg' => ⟨(Option.some_inj.mp hg').symm, rfl, rfl⟩) nofun
  | captureEnd =>
    obtain ⟨g, hg, rfl⟩ := Option.map_eq_some_iff.mp hnext
    exact h.setGraph nofun fun _ => ⟨w.gen.offsetIntragraph.toNat_lt, (h.captured g hg).2⟩
  | replay g =>
    obtain ⟨hidle, hexec⟩ := idle_of_replay hnext
    by_cases hzero : (w.graphs g).wholegraphIncrement = 0
    · obtain rfl := Option.some_inj.mp ((replay_zero hidle hexec hzero).symm.trans hnext)
      exact h.congr rfl rfl (.inl hidle)
    · obtain rfl := Option.some_inj.mp
        ((replay_eq hidle hexec (R.not_capturing hidle) R.aligned hzero).symm.trans hnext)
      exact h.congr rfl rfl (.inl hidle)
  | reset g =>
    obtain rfl := Option.some_inj.mp hnext
    refine ⟨fun g' hg' => ?_, fun g' hg' => ?_⟩
    · have hcaptured := h.captured g' hg'
      by_cases hgg : g' = g
      · subst hgg
        simpa [World.setGraph] using hcaptured.2
      · simpa [World.setGraph, Function.update_of_ne hgg] using hcaptured
    · by_cases hgg : g' = g
      · subst hgg
        simp [World.setGraph] at hg'
      · simp only [World.setGraph, Function.update_of_ne hgg] at hg' ⊢
        exact h.replayable g' hg'
  | setCurrentSeed seed =>
    obtain ⟨gen, hgen, rfl⟩ := Option.map_eq_some_iff.mp hnext
    unfold NPUGeneratorState.setCurrentSeed at hgen
    split_ifs at hgen
    all_goals
      obtain rfl := Option.some_inj.mp hgen
      exact h.congr rfl rfl (.inr rfl)
  | setOffset offset =>
    change w.setOffset offset = some w' at hnext
    unfold World.setOffset at hnext
    split_ifs at hnext with hc
    obtain ⟨gen, hgen, rfl⟩ := Option.map_eq_some_iff.mp hnext
    exact h.congr rfl rfl (.inl (by simpa using hc))
  | setState newState =>
    obtain ⟨gen, hgen, rfl⟩ := Option.map_eq_some_iff.mp hnext
    exact h.congr rfl rfl (.inl hregular)

/-! ### Eager draws -/

def eagerDraws (seed : UInt64) : UInt64 → List UInt64 → List Draw
  | _, [] => []
  | offset, n :: ns => draws seed offset n ++ eagerDraws seed (offset + roundToFour n) ns

/-- The world after draws outside a capture. -/
def World.eager (w : World) (ns : List UInt64) : World :=
  { w with
    gen := ns.foldl NPUGeneratorState.advance w.gen
    drawn := w.drawn ++ eagerDraws w.gen.seed w.gen.philoxOffsetPerThread ns }

theorem philoxNpuState_eq (R : Ready w) (hidle : w.capture = none) : w.philoxNpuState n = some { w with
    gen := w.gen.advance n, drawn := w.drawn ++ draws w.gen.seed w.gen.philoxOffsetPerThread n } := by
  unfold World.philoxNpuState
  rw [hidle, Option.isSome_none, increase_false, if_pos ⟨R.not_capturing hidle, R.aligned⟩]
  rfl

theorem run_eager (R : Ready w) (hidle : w.capture = none) (ns : List UInt64) :
    Machine.run World.next w (ns.map .philoxNpuState) = some (w.eager ns) := by
  induction ns generalizing w with
  | nil => simp [Machine.run, World.eager, eagerDraws]
  | cons n ns ih =>
    have heq := philoxNpuState_eq (n := n) R hidle
    rw [List.map_cons, Machine.run_cons]
    refine ⟨_, heq, (ih (R.philoxNpuState heq) hidle).trans ?_⟩
    simp [World.eager, eagerDraws, NPUGeneratorState.advance]

theorem seed_foldl_advance (ns : List UInt64) : (ns.foldl NPUGeneratorState.advance s).seed = s.seed := by
  induction ns generalizing s with
  | nil => rfl
  | cons n ns ih => exact ih

/-- Kernels that stand one after the other read what their increments would have read eagerly. -/
theorem Laid.eager (seed : UInt64) (h : Laid o ks total) (hb : s.philoxOffsetPerThread = b + UInt64.ofNat o) :
    reads seed b ks = eagerDraws seed s.philoxOffsetPerThread (ks.map CapturedKernel.increment) ∧
      ((ks.map CapturedKernel.increment).foldl NPUGeneratorState.advance s).philoxOffsetPerThread =
        b + UInt64.ofNat total := by
  induction ks generalizing o s with
  | nil =>
    obtain rfl : o = total := h
    exact ⟨rfl, hb⟩
  | cons k ks ih =>
    obtain ⟨ho, hn, h⟩ := h
    have hround : roundToFour k.increment = UInt64.ofNat (rounded k.increment.toNat) := by
      apply UInt64.toNat_inj.mp
      have hle := le_rounded k.increment.toNat
      rw [toNat_roundToFour (by omega), UInt64.toNat_ofNat_of_lt' (by show _ < 2 ^ 64; omega)]
    have hnext : (s.advance k.increment).philoxOffsetPerThread =
        b + UInt64.ofNat (o + rounded k.increment.toNat) := by
      unfold NPUGeneratorState.advance
      rw [hb, hround, UInt64.ofNat_add]
      exact UInt64.add_assoc _ _ _
    obtain ⟨hreads, hoffset⟩ := ih h hnext
    refine ⟨?_, hoffset⟩
    unfold reads at hreads ⊢
    rw [List.flatMap_cons, hreads, toUInt64_offsetIntragraph ho, ← hb]
    rfl

theorem Laid.reads_eq_nil {seed : UInt64} (h : Laid o ks o) : reads seed b ks = [] := by
  induction ks generalizing o with
  | nil => rfl
  | cons k ks ih =>
    obtain ⟨-, -, h⟩ := h
    have hle := h.le
    have hround := le_rounded k.increment.toNat
    have hzero : k.increment = 0 := UInt64.toNat_inj.mp (by show _ = 0; omega)
    have hrest : reads seed b ks = [] := ih (by rwa [show o + rounded k.increment.toNat = o by omega] at h)
    unfold reads at hrest ⊢
    rw [List.flatMap_cons, hrest, hzero]
    rfl

/-- A replay is the eager draws of its kernels, but for the contents of the tensors. -/
theorem replay_eager {g : GraphId} (R : Ready w) (h : Recorded w) (hidle : w.capture = none)
    (hexec : (w.graphs g).hasGraphExec = true) : ∃ w₁, w.replay g = some w₁ ∧
      w₁.drawn = w.drawn ++ reads w.gen.seed w.gen.philoxOffsetPerThread (w.graphs g).kernels ∧
      w₁.gen.seed = w.gen.seed ∧
      w₁.gen.philoxOffsetPerThread = w.gen.philoxOffsetPerThread + (w.graphs g).wholegraphIncrement := by
  obtain ⟨hlt, hlaid⟩ := h.replayable g hexec
  by_cases hzero : (w.graphs g).wholegraphIncrement = 0
  · refine ⟨_, replay_zero hidle hexec hzero, ?_, rfl, by simp [hzero]⟩
    rw [hzero] at hlaid
    rw [hlaid.reads_eq_nil, hlaid.reads_eq_nil]
  · refine ⟨_, replay_eq hidle hexec (R.not_capturing hidle) R.aligned hzero, rfl, rfl, ?_⟩
    have hround : roundToFour (w.graphs g).wholegraphIncrement = (w.graphs g).wholegraphIncrement := by
      apply UInt64.toNat_inj.mp
      rw [toNat_roundToFour (by omega)]
      have hmod := hlaid.mod rfl
      unfold rounded
      omega
    unfold NPUGeneratorState.advance
    rw [hround]

/-! ### Runs -/

/-- A generator that has been seeded, and no graphs. -/
def World.start (seed : UInt64) : World := { gen := { seed } }

theorem ready_of_run {seed : UInt64} {calls : List GeneratorCall}
    (hrun : Machine.run World.next (.start seed) calls = some w) : Ready w := by
  refine Machine.run_induction (fun _ _ _ h hnext => h.next hnext) ?_ hrun
  exact ⟨rfl, rfl⟩

theorem recorded_of_run {seed : UInt64} {calls : List GeneratorCall}
    (hregular : Machine.Guarded World.next Regular (.start seed) calls)
    (hrun : Machine.run World.next (.start seed) calls = some w) : Ready w ∧ Recorded w := by
  have hstart : Recorded (.start seed) := ⟨by simp [World.start], by simp [World.start]⟩
  refine Machine.guarded_run_induction (P := fun w => Ready w ∧ Recorded w) ?_ ⟨⟨rfl, rfl⟩, hstart⟩ hregular hrun
  rintro w call w' ⟨R, h⟩ hG hnext
  exact ⟨R.next hnext, h.next R hG hnext⟩

/-- The replay of a graph reads what its captured draws would read eagerly here, and leaves the generator where they
would leave it. -/
theorem replay_eq_eager (seed : UInt64) (calls : List GeneratorCall) (g : GraphId)
    (hregular : Machine.Guarded World.next Regular (.start seed) calls)
    (hrun : Machine.run World.next (.start seed) calls = some w) (hidle : w.capture = none)
    (hexec : (w.graphs g).hasGraphExec = true) :
    ∃ w₁ w₂, w.next (.replay g) = some w₁ ∧
      Machine.run World.next w ((w.graphs g).kernels.map fun kernel => .philoxNpuState kernel.increment) = some w₂ ∧
      w₁.drawn = w₂.drawn ∧ w₁.gen.seed = w₂.gen.seed ∧
      w₁.gen.philoxOffsetPerThread = w₂.gen.philoxOffsetPerThread := by
  obtain ⟨R, h⟩ := recorded_of_run hregular hrun
  obtain ⟨w₁, hreplay, hdrawn, hseed, hoffset⟩ := replay_eager R h hidle hexec
  have hlaid := (h.replayable g hexec).2
  obtain ⟨hreads, hadvance⟩ := hlaid.eager w.gen.seed (s := w.gen) (b := w.gen.philoxOffsetPerThread) (by simp)
  have heager := run_eager R hidle ((w.graphs g).kernels.map CapturedKernel.increment)
  rw [List.map_map] at heager
  refine ⟨w₁, _, hreplay, heager, ?_, ?_, ?_⟩
  · rw [hdrawn, hreads]
    rfl
  · rw [hseed]
    exact (seed_foldl_advance _).symm
  · rw [hoffset]
    refine Eq.trans ?_ hadvance.symm
    rw [UInt64.ofNat_toNat]

/-- Two draws are captured after an eager one. -/
def captureRun : List GeneratorCall :=
  [.philoxNpuState 6, .captureBegin 1, .philoxNpuState 3, .philoxNpuState 10, .captureEnd]

theorem replay_eq_eager_captureRun : ∃ w, Machine.run World.next (.start 7) captureRun = some w ∧
    ∃ w₁ w₂, w.next (.replay 1) = some w₁ ∧
      Machine.run World.next w ((w.graphs 1).kernels.map fun kernel => .philoxNpuState kernel.increment) = some w₂ ∧
      w₁.drawn = w₂.drawn ∧ w₁.gen.seed = w₂.gen.seed ∧
      w₁.gen.philoxOffsetPerThread = w₂.gen.philoxOffsetPerThread :=
  ⟨_, rfl, replay_eq_eager 7 captureRun 1 (by decide) rfl rfl rfl⟩

/-- The generator is not set, and its offset does not wrap around. -/
def NotSet (w : World) : GeneratorCall → Prop
  | .philoxNpuState n =>
    if w.capture = none then w.gen.philoxOffsetPerThread.toNat + n.toNat + 3 < 2 ^ 64 else n.toNat + 3 < 2 ^ 32
  | .philoxEngineInputs n => w.gen.philoxOffsetPerThread.toNat + n.toNat + 3 < 2 ^ 64
  | .replay g => w.gen.philoxOffsetPerThread.toNat + (w.graphs g).wholegraphIncrement.toNat < 2 ^ 64
  | .setCurrentSeed _ | .setOffset _ | .setState _ => False
  | _ => True

instance decidableNotSet (w : World) : ∀ call, Decidable (NotSet w call)
  | .philoxNpuState _ => inferInstanceAs (Decidable (ite _ _ _))
  | .philoxEngineInputs _ | .replay _ => inferInstanceAs (Decidable (_ < _))
  | .setCurrentSeed _ | .setOffset _ | .setState _ => isFalse id
  | .captureBegin _ | .captureEnd | .reset _ => isTrue trivial

theorem NotSet.regular {call : GeneratorCall} (h : NotSet w call) : Regular w call := by
  cases call with
  | philoxNpuState n =>
    by_cases hidle : w.capture = none
    · exact .inl hidle
    · exact .inr (by simpa [NotSet, hidle] using h)
  | setState newState => exact h.elim
  | _ => trivial

/-- What has been read since `w₀`. -/
def ReadSince (w₀ w : World) : Prop :=
  w.gen.seed = w₀.gen.seed ∧ ∃ new, w.drawn = w₀.drawn ++ new ∧ (∀ d ∈ new, d.seed = w₀.gen.seed) ∧
    Spans Draw.start Draw.size w₀.gen.philoxOffsetPerThread.toNat w.gen.philoxOffsetPerThread.toNat new

theorem ReadSince.step {w₀ : World} {ds : List Draw} (h : ReadSince w₀ w) (hdrawn : w'.drawn = w.drawn ++ ds)
    (hseed : w'.gen.seed = w.gen.seed) (hds : ∀ d ∈ ds, d.seed = w.gen.seed)
    (hspans : Spans Draw.start Draw.size w.gen.philoxOffsetPerThread.toNat w'.gen.philoxOffsetPerThread.toNat ds) :
    ReadSince w₀ w' := by
  obtain ⟨hs, new, hnew, hnewSeed, hnewSpans⟩ := h
  refine ⟨hseed.trans hs, new ++ ds, by rw [hdrawn, hnew, List.append_assoc], fun d hd => ?_, hnewSpans.append hspans⟩
  rcases List.mem_append.mp hd with hd | hd
  · exact hnewSeed d hd
  · rw [hds d hd, hs]

theorem ReadSince.same {w₀ : World} (h : ReadSince w₀ w) (hdrawn : w'.drawn = w.drawn)
    (hseed : w'.gen.seed = w.gen.seed) (hoffset : w'.gen.philoxOffsetPerThread = w.gen.philoxOffsetPerThread) :
    ReadSince w₀ w' :=
  h.step (by rw [hdrawn, List.append_nil]) hseed (by simp) (.nil (by rw [hoffset]))

theorem ReadSince.philoxNpuState {w₀ : World} (h : ReadSince w₀ w)
    (hfit : w.capture = none → w.gen.philoxOffsetPerThread.toNat + n.toNat + 3 < 2 ^ 64)
    (hnext : w.philoxNpuState n = some w') : ReadSince w₀ w' := by
  rcases philoxNpuState_eq_some hnext with ⟨hidle, rfl⟩ | ⟨g, -, -, rfl⟩
  · have hfit := hfit hidle
    have hround := le_rounded n.toNat
    have hoffset : (w.gen.advance n).philoxOffsetPerThread.toNat =
        w.gen.philoxOffsetPerThread.toNat + rounded n.toNat := by
      unfold NPUGeneratorState.advance
      rw [UInt64.toNat_add, toNat_roundToFour (by omega), Nat.mod_eq_of_lt (by omega)]
    have hds := spans_draws w.gen.seed (show w.gen.philoxOffsetPerThread.toNat + n.toNat ≤
      (w.gen.advance n).philoxOffsetPerThread.toNat by omega)
    exact h.step rfl rfl hds.2 hds.1
  · exact h.same rfl rfl rfl

theorem ReadSince.next {w₀ : World} {call : GeneratorCall} (R : Ready w) (hrec : Recorded w) (h : ReadSince w₀ w)
    (hset : NotSet w call) (hnext : w.next call = some w') : ReadSince w₀ w' := by
  cases call with
  | philoxNpuState n => exact h.philoxNpuState (fun hidle => by simpa [NotSet, hidle] using hset) hnext
  | philoxEngineInputs n =>
    change w.philoxEngineInputs n = some w' at hnext
    unfold World.philoxEngineInputs at hnext
    split_ifs at hnext
    exact h.philoxNpuState (fun _ => hset) hnext
  | captureBegin g =>
    change w.captureBegin g = some w' at hnext
    unfold World.captureBegin at hnext
    split_ifs at hnext
    obtain rfl := Option.some_inj.mp hnext
    exact h.same rfl rfl rfl
  | captureEnd =>
    obtain ⟨g, -, rfl⟩ := Option.map_eq_some_iff.mp hnext
    exact h.same rfl rfl rfl
  | replay g =>
    obtain ⟨hidle, hexec⟩ := idle_of_replay hnext
    obtain ⟨w₁, hreplay, hdrawn, hseed, hoffset⟩ := replay_eager R hrec hidle hexec
    obtain rfl := Option.some_inj.mp (hreplay.symm.trans hnext)
    have hfit : w.gen.philoxOffsetPerThread.toNat + (w.graphs g).wholegraphIncrement.toNat < 2 ^ 64 := hset
    have hds := (hrec.replayable g hexec).2.spans w.gen.seed hfit
    refine h.step hdrawn hseed hds.2 ?_
    rw [hoffset, UInt64.toNat_add, Nat.mod_eq_of_lt hfit]
    exact hds.1
  | reset g =>
    obtain rfl := Option.some_inj.mp hnext
    exact h.same rfl rfl rfl
  | setCurrentSeed _ | setOffset _ | setState _ => exact hset.elim

/-- As long as the generator is not set, all kernels, of graphs or not, read numbers of their own: each draw begins where
the one before it has ended, or later. -/
theorem drawn_spans (seed : UInt64) (calls calls' : List GeneratorCall)
    (hregular : Machine.Guarded World.next Regular (.start seed) calls)
    (hrun : Machine.run World.next (.start seed) calls = some w)
    (hset : Machine.Guarded World.next NotSet w calls') (hrun' : Machine.run World.next w calls' = some w') :
    ∃ new, w'.drawn = w.drawn ++ new ∧ (∀ d ∈ new, d.seed = w.gen.seed) ∧
      Spans Draw.start Draw.size w.gen.philoxOffsetPerThread.toNat w'.gen.philoxOffsetPerThread.toNat new := by
  have hend : Ready w' ∧ Recorded w' ∧ ReadSince w w' := by
    obtain ⟨R, h⟩ := recorded_of_run hregular hrun
    refine Machine.guarded_run_induction (P := fun u => Ready u ∧ Recorded u ∧ ReadSince w u) ?_
      ⟨R, h, rfl, [], by simp, by simp, .nil le_rfl⟩ hset hrun'
    rintro u call u' ⟨R, h, hread⟩ hG hnext
    exact ⟨R.next hnext, h.next R hG.regular hnext, hread.next R h hG hnext⟩
  exact hend.2.2.2

theorem drawn_spans_replays : ∃ w w' new, Machine.run World.next (.start 7) captureRun = some w ∧
    Machine.run World.next w [.replay 1, .philoxNpuState 5, .replay 1] = some w' ∧ w'.drawn = w.drawn ++ new ∧
      (∀ d ∈ new, d.seed = w.gen.seed) ∧
      Spans Draw.start Draw.size w.gen.philoxOffsetPerThread.toNat w'.gen.philoxOffsetPerThread.toNat new := by
  obtain ⟨new, hnew⟩ := drawn_spans 7 captureRun [.replay 1, .philoxNpuState 5, .replay 1] (by decide) rfl
    (by decide) rfl
  exact ⟨_, _, new, rfl, rfl, hnew⟩

/-! ### Saved states -/

theorem setState_getState_eq (s t : NPUGeneratorState) (halign : s.philoxOffsetPerThread.toNat % 4 = 0) :
    t.setState false (s.getState false) =
      some { t with seed := s.seed, philoxOffsetPerThread := s.philoxOffsetPerThread } := by
  have hseed : s.seed.toNat < 256 ^ 8 := s.seed.toNat_lt
  have hoffset : s.philoxOffsetPerThread.toNat < 256 ^ 8 := s.philoxOffsetPerThread.toNat_lt
  unfold NPUGeneratorState.setState NPUGeneratorState.getState
  rw [if_pos (by simp), List.take_left' (by simp), List.drop_left' (by simp)]
  simp only [Bool.false_eq_true, if_false]
  rw [leDecode_leEncode_of_lt hseed, leDecode_leEncode_of_lt hoffset]
  simp [NPUGeneratorState.setCurrentSeed, NPUGeneratorState.setPhiloxOffset, mod_four_eq_zero_iff, halign]

/-- The state that `get_state` gives is accepted by `set_state` at any later time, and from there on kernels read what
they would have read where it was taken. -/
theorem resumes_of_setState (seed : UInt64) (calls calls' : List GeneratorCall)
    (hrun : Machine.run World.next (.start seed) calls = some w) (hidle : w.capture = none)
    (hrun' : Machine.run World.next w calls' = some w') (hidle' : w'.capture = none) (ns : List UInt64) :
    ∃ w₁ u v new, w'.next (.setState (w.gen.getState false)) = some w₁ ∧ w₁.graphs = w'.graphs ∧
      Machine.run World.next w (ns.map .philoxNpuState) = some u ∧ u.drawn = w.drawn ++ new ∧
      Machine.run World.next w₁ (ns.map .philoxNpuState) = some v ∧ v.drawn = w'.drawn ++ new := by
  have R : Ready w := ready_of_run hrun
  have R' : Ready w' := ready_of_run (Machine.run_append.mpr ⟨w, hrun, hrun'⟩)
  have hset : w'.next (.setState (w.gen.getState false)) = some { w' with
      gen := { w'.gen with seed := w.gen.seed, philoxOffsetPerThread := w.gen.philoxOffsetPerThread } } := by
    change (w'.gen.setState w'.capture.isSome _).map _ = _
    rw [hidle', Option.isSome_none, setState_getState_eq _ _ R.aligned]
    rfl
  exact ⟨_, _, _, _, hset, rfl, run_eager R hidle ns, rfl, run_eager (R'.next hset) hidle' ns, rfl⟩

theorem resumes_of_setState_captureRun : ∃ w w' w₁ u v new, Machine.run World.next (.start 7) captureRun = some w ∧
    Machine.run World.next w [.setCurrentSeed 1, .replay 1] = some w' ∧
      w'.next (.setState (w.gen.getState false)) = some w₁ ∧ w₁.graphs = w'.graphs ∧
      Machine.run World.next w ([2, 9].map .philoxNpuState) = some u ∧ u.drawn = w.drawn ++ new ∧
      Machine.run World.next w₁ ([2, 9].map .philoxNpuState) = some v ∧ v.drawn = w'.drawn ++ new := by
  obtain ⟨w₁, u, v, new, h⟩ := resumes_of_setState 7 captureRun [.setCurrentSeed 1, .replay 1] rfl rfl rfl rfl [2, 9]
  exact ⟨_, _, w₁, u, v, new, rfl, rfl, h⟩

end TorchNpu.Core.Generator

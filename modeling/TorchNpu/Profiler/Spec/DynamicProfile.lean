/-
  Which configs the ranks receive.

  The proof is about one rank at a time.  `Shared` says what the buffer holds besides the bytes of a write that
  is not complete: the last image, which is of an edit or older than all edits.  `Received` says what the rank
  has got of it.
-/
import TorchNpu.Profiler.DynamicProfile
import Mathlib.Data.List.Pairwise

namespace TorchNpu.Profiler.DynamicProfile

variable {C : Type*} {worldSize : ℕ} {params : MonitorParams C} {s s' : DynamicProfile C worldSize}

/-! ### What is claimed -/

/-- Every rank has received configs that were written to the file, in the order of the edits and none of them
twice.  It has received the last one if it has returned from a call that began after a turn of the monitor
that began after the edit. -/
def Delivered (s : DynamicProfile C worldSize) : Prop :=
  ∀ rank, ∃ received : List ℕ,
    received.Pairwise (· < ·) ∧
    received.map (fun i => s.edits[i]?.map Prod.fst) = (s.ranks rank).contexts.map some ∧
    (s.edits ≠ [] → (s.ranks rank).stepped = s.edits.length → received.getLast? = some (s.edits.length - 1))

/-- The time of an edit is not the one that the monitor has seen last, unless it is about to read the file. -/
def FreshTime (lastFileT time : ℕ) : MonitorPc → Prop
  | .loading _ => time = lastFileT
  | .polling | .writing _ _ _ | .dead => time ≠ lastFileT

instance (lastFileT time : ℕ) : DecidablePred (FreshTime lastFileT time)
  | .loading _ => inferInstanceAs (Decidable (time = lastFileT))
  | .polling | .writing _ _ _ | .dead => inferInstanceAs (Decidable (time ≠ lastFileT))

/-- The monitor is not in the middle of a write. -/
def BetweenWrites : MonitorPc → Prop
  | .writing _ _ count => count = 0
  | .polling | .loading _ | .dead => True

instance : DecidablePred BetweenWrites
  | .writing _ _ count => inferInstanceAs (Decidable (count = 0))
  | .polling | .loading _ | .dead => isTrue trivial

/-- The condition on a step.  An edit fits into the buffer and has a time of its own, later than the start of
the ranks.  No rank reads while the monitor writes. -/
def Careful (params : MonitorParams C) (startTime : Fin worldSize → ℕ) (s : DynamicProfile C worldSize) :
    ProfileLabel C worldSize → Prop
  | .edit config time =>
    4 + (params.toBytes config).length ≤ params.maxSize ∧ time < 256 ^ 4 ∧ (∀ rank, startTime rank < time) ∧
      FreshTime s.lastFileT time s.monitor
  | .getmtime | .readFile => True
  | .writeBytes _ => ∀ rank, (s.ranks rank).bytes = []
  | .readBytes rank _ => (s.ranks rank).bytes = [] → BetweenWrites s.monitor

instance (startTime : Fin worldSize → ℕ) (s : DynamicProfile C worldSize) :
    DecidablePred (s.Careful params startTime)
  | .edit _ _ => inferInstanceAs (Decidable (_ ∧ _))
  | .getmtime | .readFile => isTrue trivial
  | .writeBytes _ => inferInstanceAs (Decidable (∀ _, _))
  | .readBytes _ _ => inferInstanceAs (Decidable (_ → _))

/-! ### Bytes -/

theorem length_ljust {size : ℕ} {bytes : List UInt8} (h : bytes.length ≤ size) :
    (ljust size bytes).length = size := by
  rw [ljust, List.length_append, List.length_replicate]
  omega

theorem lstrip_of_head {bytes : List UInt8} (h : bytes.head? = some 123) : lstrip bytes = bytes := by
  obtain ⟨rest, rfl⟩ := List.head?_eq_some_iff.mp h
  exact List.dropWhile_cons_of_neg (by decide)

/-- The image of a config in the buffer. -/
theorem ofBytes_image (params : MonitorParams C) (time : ℕ) (config : C) :
    params.ofBytes (lstrip ((ljust params.maxSize (leEncode 4 time ++ params.toBytes config)).drop 4)) =
      some config := by
  have hdrop : (ljust params.maxSize (leEncode 4 time ++ params.toBytes config)).drop 4 =
      params.toBytes config ++
        List.replicate (params.maxSize - (leEncode 4 time ++ params.toBytes config).length) 32 := by
    rw [ljust, List.append_assoc]
    exact List.drop_left' (length_leEncode 4 time)
  have hhead : (params.toBytes config ++
      List.replicate (params.maxSize - (leEncode 4 time ++ params.toBytes config).length) 32).head? =
        some 123 := by
    rw [List.head?_append, params.head_toBytes]
    rfl
  rw [hdrop, lstrip_of_head hhead, params.ofBytes_toBytes]

/-- The bytes are the image of an edit with its time, or older than all edits. -/
structure IsImage (params : MonitorParams C) (edits : List (C × ℕ)) (edit : Option ℕ) (time : ℕ)
    (bytes : List UInt8) : Prop where
  length : bytes.length = params.maxSize
  header : leDecode (bytes.take 4) = time
  config : ∀ i, edit = some i → ∃ config, edits[i]? = some (config, time) ∧
    params.ofBytes (lstrip (bytes.drop 4)) = some config
  older : edit = none → time = 0

theorem IsImage.append {edits : List (C × ℕ)} {edit : Option ℕ} {time : ℕ} {bytes : List UInt8}
    (h : IsImage params edits edit time bytes) (more : List (C × ℕ)) :
    IsImage params (edits ++ more) edit time bytes where
  length := h.length
  header := h.header
  config i hi := by
    obtain ⟨config, hconfig, hbytes⟩ := h.config i hi
    refine ⟨config, ?_, hbytes⟩
    rw [List.getElem?_append_left (List.getElem?_eq_some_iff.mp hconfig).choose, hconfig]
  older := h.older

theorem isImage_ljust {edits : List (C × ℕ)} {edit : Option ℕ} {time : ℕ} {config : C} (htime : time < 256 ^ 4)
    (hlength : (leEncode 4 time ++ params.toBytes config).length ≤ params.maxSize)
    (hedit : ∀ i, edit = some i → edits[i]? = some (config, time)) (holder : edit = none → time = 0) :
    IsImage params edits edit time (ljust params.maxSize (leEncode 4 time ++ params.toBytes config)) where
  length := length_ljust hlength
  header := by
    rw [ljust, List.append_assoc, List.take_left' (length_leEncode 4 time), leDecode_leEncode_of_lt htime]
  config i hi := ⟨config, hedit i hi, ofBytes_image params time config⟩
  older := holder

/-! ### The invariant -/

/-- The bytes of a write that are in the buffer already. -/
def written : MonitorPc → List UInt8
  | .writing _ bytes count => bytes.take count
  | .polling | .loading _ | .dead => []

/-- The last of the edits, if there is one. -/
def UpToDate (edits : List (C × ℕ)) (edit : Option ℕ) : Prop :=
  edits ≠ [] → edit = some (edits.length - 1)

/-- What the monitor is about to write is later than what it has written. -/
def MonitorInv (params : MonitorParams C) (s : DynamicProfile C worldSize) (edit : Option ℕ) (time : ℕ) : Prop :=
  match s.monitor with
  | .polling => s.lastFileT = s.file.2 → UpToDate s.edits edit
  | .loading seen =>
    s.lastFileT = s.file.2 ∧ seen ≤ s.edits.length ∧ (s.edits ≠ [] ∧ time < s.lastFileT ∨ s.lastFileT = 0)
  | .writing seen bytes count =>
    count ≤ bytes.length ∧ seen ≤ s.edits.length ∧ ∃ edit', IsImage params s.edits edit' s.lastFileT bytes ∧
      (∀ i, edit' = some i → time < s.lastFileT) ∧ (edit' = none → edit = none) ∧
      (s.lastFileT = s.file.2 ∨ seen = s.edits.length → UpToDate s.edits edit')
  | .dead => False

/-- The edits, the monitor and the buffer; the last complete write is of `edit`, with this time and image. -/
structure Shared (params : MonitorParams C) (startTime : ℕ) (s : DynamicProfile C worldSize) (edit : Option ℕ)
    (time : ℕ) (image : List UInt8) : Prop where
  sorted : s.edits.Pairwise fun e e' => e.2 ≤ e'.2
  later : ∀ e ∈ s.edits, startTime < e.2
  fits : ∀ e ∈ s.edits, e.2 < 256 ^ 4 ∧ 4 + (params.toBytes e.1).length ≤ params.maxSize
  isImage : IsImage params s.edits edit time image
  buf : s.buf = written s.monitor ++ image.drop (written s.monitor).length
  time_le : time ≤ s.lastFileT
  fileT_le : s.lastFileT ≤ s.file.2
  unedited : s.edits = [] → s.lastFileT = s.file.2
  polled_le : s.polled ≤ s.edits.length
  polled : s.polled = s.edits.length → UpToDate s.edits edit
  monitor : MonitorInv params s edit time

/-- What the time of a rank says about what it has received. -/
def TimeInv (edits : List (C × ℕ)) (startTime curTime : ℕ) (edit : Option ℕ) (time : ℕ) (received : List ℕ) : Prop :=
  received = [] ∧ curTime = startTime ∨
  ∃ i j config, received.getLast? = some i ∧ edit = some j ∧ edits[i]? = some (config, curTime) ∧
    i ≤ j ∧ (curTime = time → i = j)

/-- What a rank has received, and what it has read of the image. -/
structure Received (startTime : ℕ) (s : DynamicProfile C worldSize) (rank : Rank C) (edit : Option ℕ) (time : ℕ)
    (image : List UInt8) (received : List ℕ) : Prop where
  increasing : received.Pairwise (· < ·)
  contexts : received.map (fun i => s.edits[i]?.map Prod.fst) = rank.contexts.map some
  bytes : rank.bytes = image.take rank.bytes.length
  reading : rank.bytes ≠ [] → written s.monitor = []
  idle : rank.bytes.length < 4 → TimeInv s.edits startTime rank.curTime edit time received
  accepted : 4 ≤ rank.bytes.length → rank.curTime = time ∧ ∃ j, edit = some j ∧ ∀ i ∈ received, i < j
  begun_le : rank.begun ≤ s.edits.length
  begun : rank.bytes ≠ [] → rank.begun = s.edits.length → UpToDate s.edits edit
  stepped_le : rank.stepped ≤ s.edits.length
  stepped : s.edits ≠ [] → rank.stepped = s.edits.length → received.getLast? = some (s.edits.length - 1)

variable {startTime : ℕ} {rank : Rank C} {edit : Option ℕ} {time : ℕ} {image : List UInt8} {received : List ℕ}

theorem file_of_edits_ne_nil (h : s.edits ≠ []) : s.edits[s.edits.length - 1]? = some s.file := by
  rw [file, ← List.getLast?_eq_getElem?]
  rw [List.getLast?_eq_some_getLast h]
  rfl

/-- Earlier edits have earlier times. -/
theorem Shared.le_of_le (h : Shared params startTime s edit time image) {i j : ℕ} {e e' : C × ℕ}
    (hi : s.edits[i]? = some e) (hj : s.edits[j]? = some e') (hij : i ≤ j) : e.2 ≤ e'.2 := by
  obtain ⟨hi', rfl⟩ := List.getElem?_eq_some_iff.mp hi
  obtain ⟨hj', rfl⟩ := List.getElem?_eq_some_iff.mp hj
  rcases Nat.lt_or_eq_of_le hij with hlt | rfl
  · exact List.pairwise_iff_getElem.mp h.sorted i j hi' hj' hlt
  · exact Nat.le_refl _

theorem Shared.file_mem (_ : Shared params startTime s edit time image) (hne : s.edits ≠ []) : s.file ∈ s.edits :=
  List.mem_of_getElem? (file_of_edits_ne_nil hne)

/-- No edit is later than the file. -/
theorem Shared.le_file (h : Shared params startTime s edit time image) {e : C × ℕ} (he : e ∈ s.edits) :
    e.2 ≤ s.file.2 := by
  obtain ⟨i, hi⟩ := List.getElem?_of_mem he
  have hlt : i < s.edits.length := (List.getElem?_eq_some_iff.mp hi).choose
  exact h.le_of_le hi (file_of_edits_ne_nil (List.ne_nil_of_mem he)) (by omega)

/-- An edit with a later time is a later one. -/
theorem Shared.lt_of_lt (h : Shared params startTime s edit time image) {i j : ℕ} {e e' : C × ℕ}
    (hi : s.edits[i]? = some e) (hj : s.edits[j]? = some e') (hlt : e.2 < e'.2) : i < j := by
  by_contra hle
  exact absurd (h.le_of_le hj hi (by omega)) (by omega)

/-! ### An edit -/

theorem Shared.append (h : Shared params startTime s edit time image) {config : C} {newTime : ℕ}
    (hfits : 4 + (params.toBytes config).length ≤ params.maxSize) (htime : newTime < 256 ^ 4)
    (hlater : startTime < newTime) (hfile : s.file.2 ≤ newTime)
    (hfresh : FreshTime s.lastFileT newTime s.monitor) :
    Shared params startTime { s with edits := s.edits ++ [(config, newTime)] } edit time image := by
  have hfile' : ({ s with edits := s.edits ++ [(config, newTime)] } : DynamicProfile C worldSize).file =
      (config, newTime) := by
    rw [file, List.getLast?_concat]
    rfl
  have hfileT := h.fileT_le
  constructor
  · rw [List.pairwise_append]
    refine ⟨h.sorted, List.pairwise_singleton _ _, fun e he e' he' => ?_⟩
    obtain rfl := List.mem_singleton.mp he'
    exact (h.le_file he).trans hfile
  · rw [List.forall_mem_append, List.forall_mem_singleton]
    exact ⟨h.later, hlater⟩
  · rw [List.forall_mem_append, List.forall_mem_singleton]
    exact ⟨h.fits, htime, hfits⟩
  · exact h.isImage.append _
  · exact h.buf
  · exact h.time_le
  · rw [hfile']
    exact hfileT.trans hfile
  · intro hnil
    exact absurd hnil (by simp)
  · rw [List.length_append]
    exact h.polled_le.trans (Nat.le_add_right _ _)
  · intro hpolled
    have hle := h.polled_le
    rw [List.length_append, List.length_singleton] at hpolled
    exact absurd hpolled (by show ¬ s.polled = _; omega)
  · have hmonitor := h.monitor
    rw [MonitorInv] at hmonitor ⊢
    rw [hfile']
    dsimp only
    revert hmonitor hfresh
    cases s.monitor with
    | polling =>
      intro hfresh _ hsame
      exact absurd hsame.symm hfresh
    | loading seen =>
      rintro rfl ⟨-, hseen, hor⟩
      refine ⟨rfl, by rw [List.length_append]; omega, .inl ⟨by simp, ?_⟩⟩
      rcases hor with ⟨-, hlt⟩ | hzero
      · exact hlt
      · omega
    | writing seen bytes count =>
      rintro hfresh ⟨hcount, hseen, edit', himage, hlt, hnone, -⟩
      refine ⟨hcount, by rw [List.length_append]; omega, edit', himage.append _, hlt, hnone, ?_⟩
      rw [List.length_append, List.length_singleton]
      rintro (hsame | hsame)
      · exact absurd hsame.symm hfresh
      · omega
    | dead => exact fun _ hdead => hdead

theorem TimeInv.append {edits : List (C × ℕ)} {curTime : ℕ} (h : TimeInv edits startTime curTime edit time received)
    (more : List (C × ℕ)) : TimeInv (edits ++ more) startTime curTime edit time received := by
  obtain hnil | ⟨i, j, config, hlast, hedit, hi, hle, heq⟩ := h
  · exact .inl hnil
  · refine .inr ⟨i, j, config, hlast, hedit, ?_, hle, heq⟩
    rw [List.getElem?_append_left (List.getElem?_eq_some_iff.mp hi).choose, hi]

/-- What has been received is among the edits. -/
theorem Received.lt_length (h : Received startTime s rank edit time image received) {i : ℕ} (hi : i ∈ received) :
    i < s.edits.length := by
  have hmem : s.edits[i]?.map Prod.fst ∈ rank.contexts.map some := by
    rw [← h.contexts]
    exact List.mem_map_of_mem hi
  obtain ⟨config, -, hconfig⟩ := List.mem_map.mp hmem
  obtain ⟨e, he, -⟩ := Option.map_eq_some_iff.mp hconfig.symm
  exact (List.getElem?_eq_some_iff.mp he).choose

theorem Received.append (h : Received startTime s rank edit time image received) (e : C × ℕ) :
    Received startTime { s with edits := s.edits ++ [e] } rank edit time image received where
  increasing := h.increasing
  contexts := by
    rw [← h.contexts]
    apply List.map_congr_left
    intro i hi
    rw [List.getElem?_append_left (h.lt_length hi)]
  bytes := h.bytes
  reading := h.reading
  idle hlt := (h.idle hlt).append _
  accepted := h.accepted
  begun_le := by
    rw [List.length_append]
    exact h.begun_le.trans (Nat.le_add_right _ _)
  begun _ hbegun := by
    have hle := h.begun_le
    rw [List.length_append, List.length_singleton] at hbegun
    omega
  stepped_le := by
    rw [List.length_append]
    exact h.stepped_le.trans (Nat.le_add_right _ _)
  stepped _ hstepped := by
    have hle := h.stepped_le
    rw [List.length_append, List.length_singleton] at hstepped
    omega

/-! ### Steps of the monitor -/

/-- A step that leaves the edits and the image as they are; there is no write while the rank reads. -/
theorem Received.frame (h : Received startTime s rank edit time image received) (hedits : s'.edits = s.edits)
    (hreading : rank.bytes ≠ [] → written s'.monitor = []) :
    Received startTime s' rank edit time image received := by
  constructor
  · exact h.increasing
  · rw [hedits]
    exact h.contexts
  · exact h.bytes
  · exact hreading
  · rw [hedits]
    exact h.idle
  · exact h.accepted
  · rw [hedits]
    exact h.begun_le
  · rw [hedits]
    exact h.begun
  · rw [hedits]
    exact h.stepped_le
  · rw [hedits]
    exact h.stepped

theorem Shared.getmtime (h : Shared params startTime s edit time image) (hpolling : s.monitor = .polling) :
    Shared params startTime s.getmtime edit time image ∧ written s.getmtime.monitor = written s.monitor := by
  have hbuf := h.buf
  have htime := h.time_le
  have hfileT := h.fileT_le
  have hmonitor := h.monitor
  rw [MonitorInv, hpolling] at hmonitor
  rw [hpolling] at hbuf
  rw [DynamicProfile.getmtime]
  split_ifs with hchanged
  · refine ⟨⟨h.sorted, h.later, h.fits, h.isImage, hbuf, htime.trans hfileT, Nat.le_refl _, fun _ => rfl,
      h.polled_le, h.polled, ?_⟩, by rw [hpolling]; rfl⟩
    refine ⟨rfl, Nat.le_refl _, ?_⟩
    show s.edits ≠ [] ∧ time < s.file.2 ∨ s.file.2 = 0
    by_cases hnil : s.edits = []
    · have hsame := h.unedited hnil
      right
      rcases hchanged with hzero | hne
      · rw [← hsame, hzero]
      · exact absurd hsame hne
    · have hlater := h.later _ (h.file_mem hnil)
      exact .inl ⟨hnil, by omega⟩
  · have hsame : s.lastFileT = s.file.2 := by
      by_contra hne
      exact hchanged (.inr hne)
    refine ⟨⟨h.sorted, h.later, h.fits, h.isImage, ?_, htime, hfileT, h.unedited, Nat.le_refl _,
      fun _ => hmonitor hsame, ?_⟩, rfl⟩
    · rw [hpolling]
      exact hbuf
    · rw [MonitorInv, hpolling]
      exact fun _ => hmonitor hsame

theorem Shared.readFile (h : Shared params startTime s edit time image) {seen : ℕ}
    (hloading : s.monitor = .loading seen) :
    Shared params startTime (s.readFile params seen) edit time image ∧
      written (s.readFile params seen).monitor = written s.monitor := by
  have hbuf := h.buf
  have hmonitor := h.monitor
  rw [MonitorInv, hloading] at hmonitor
  rw [hloading] at hbuf
  obtain ⟨hsame, hseen, hor⟩ := hmonitor
  -- The time is that of an edit, or it is zero.
  have hedit (hne : s.edits ≠ []) : time < s.lastFileT ∧ s.lastFileT < 256 ^ 4 ∧
      4 + (params.toBytes s.file.1).length ≤ params.maxSize := by
    have hmem := h.file_mem hne
    have hlater := h.later _ hmem
    obtain ⟨hlt, hfits⟩ := h.fits _ hmem
    refine ⟨?_, hsame ▸ hlt, hfits⟩
    rcases hor with ⟨-, hlt⟩ | hzero
    · exact hlt
    · omega
  have hzero (hnil : s.edits = []) : s.lastFileT = 0 := by
    rcases hor with ⟨hne, -⟩ | hzero
    · exact absurd hnil hne
    · exact hzero
  have htime : s.lastFileT < 256 ^ 4 := by
    by_cases hnil : s.edits = []
    · rw [hzero hnil]
      decide
    · exact (hedit hnil).2.1
  rw [DynamicProfile.readFile, if_neg (by omega)]
  dsimp only
  split_ifs with hsize
  · -- Only the config from before all edits does not fit.
    have hnil : s.edits = [] := by
      by_contra hne
      have hfits := (hedit hne).2.2
      rw [List.length_append, length_leEncode] at hsize
      omega
    refine ⟨⟨h.sorted, h.later, h.fits, h.isImage, hbuf, h.time_le, h.fileT_le, h.unedited, hseen,
      fun _ hne => absurd hnil hne, fun _ hne => absurd hnil hne⟩, by rw [hloading]; rfl⟩
  · refine ⟨⟨h.sorted, h.later, h.fits, h.isImage, hbuf, h.time_le, h.fileT_le, h.unedited, h.polled_le,
      h.polled, ?_⟩, by rw [hloading]; rfl⟩
    refine ⟨Nat.zero_le _, hseen, if s.edits = [] then none else some (s.edits.length - 1), ?_, ?_, ?_, ?_⟩
    · apply isImage_ljust htime (by omega)
      · intro i hi
        split_ifs at hi with hnil
        cases hi
        rw [file_of_edits_ne_nil hnil]
        exact congrArg some (Prod.ext rfl hsame.symm)
      · intro hnone
        split_ifs at hnone with hnil
        exact hzero hnil
    · intro i hi
      split_ifs at hi with hnil
      exact (hedit hnil).1
    · intro hnone
      split_ifs at hnone with hnil
      cases hcase : edit with
      | none => rfl
      | some j =>
        obtain ⟨config, hconfig, -⟩ := h.isImage.config j hcase
        rw [hnil] at hconfig
        cases hconfig
    · intro _ hne
      exact if_neg hne

/-- More bytes of a write. -/
theorem Shared.buf_writeBytes (h : Shared params startTime s edit time image) {seen count : ℕ} {bytes : List UInt8}
    {more : ℕ} (hwriting : s.monitor = .writing seen bytes count) (hle : count + more ≤ bytes.length) :
    bytes.take (count + more) ++ s.buf.drop (count + more) =
      bytes.take (count + more) ++ image.drop (count + more) := by
  have hlength : (bytes.take count).length = count := by
    rw [List.length_take]
    omega
  rw [h.buf, hwriting, written, hlength, List.drop_append, List.drop_drop, hlength,
    List.drop_eq_nil_of_le (by omega), List.nil_append, Nat.add_sub_cancel_left]

theorem Shared.writeBytes_of_lt (h : Shared params startTime s edit time image) {seen count : ℕ}
    {bytes : List UInt8} {more : ℕ} (hwriting : s.monitor = .writing seen bytes count)
    (hlt : count + more < bytes.length) :
    Shared params startTime (s.writeBytes seen bytes count more) edit time image := by
  have hbuf := h.buf_writeBytes hwriting hlt.le
  have hmonitor := h.monitor
  rw [MonitorInv, hwriting] at hmonitor
  obtain ⟨-, hseen, hnew⟩ := hmonitor
  rw [DynamicProfile.writeBytes, if_pos hlt]
  refine ⟨h.sorted, h.later, h.fits, h.isImage, ?_, h.time_le, h.fileT_le, h.unedited, h.polled_le, h.polled,
    hlt.le, hseen, hnew⟩
  have hlength : (bytes.take (count + more)).length = count + more := by
    rw [List.length_take]
    omega
  show bytes.take (count + more) ++ s.buf.drop (count + more) =
    bytes.take (count + more) ++ image.drop (bytes.take (count + more)).length
  rw [hbuf, hlength]

/-- The last bytes of a write: its bytes are the new image. -/
theorem Shared.writeBytes_of_eq (h : Shared params startTime s edit time image) {seen count : ℕ}
    {bytes : List UInt8} {more : ℕ} (hwriting : s.monitor = .writing seen bytes count)
    (heq : count + more = bytes.length) :
    ∃ edit', Shared params startTime (s.writeBytes seen bytes count more) edit' s.lastFileT bytes ∧
      (∀ i, edit' = some i → time < s.lastFileT) ∧ (edit' = none → edit = none) := by
  have hbuf := h.buf_writeBytes hwriting heq.le
  have hmonitor := h.monitor
  rw [MonitorInv, hwriting] at hmonitor
  obtain ⟨-, hseen, edit', himage, hlt, hnone, hlast⟩ := hmonitor
  refine ⟨edit', ?_, hlt, hnone⟩
  rw [DynamicProfile.writeBytes, if_neg (by omega)]
  refine ⟨h.sorted, h.later, h.fits, himage, ?_, Nat.le_refl _, h.fileT_le, h.unedited, hseen,
    fun hpolled => hlast (.inr hpolled), fun hsame => hlast (.inl hsame)⟩
  show bytes.take (count + more) ++ s.buf.drop (count + more) = bytes
  rw [hbuf, heq, List.take_length, List.drop_eq_nil_of_le, List.append_nil]
  rw [himage.length, h.isImage.length]

/-- A rank that is not reading, when a write is complete. -/
theorem Received.complete (h : Received startTime s rank edit time image received)
    (hshared : Shared params startTime s edit time image) (hidle : rank.bytes = []) {edit' : Option ℕ} {time' : ℕ}
    {image' : List UInt8} (himage : IsImage params s.edits edit' time' image')
    (hlt : ∀ i, edit' = some i → time < time') (hnone : edit' = none → edit = none) (hedits : s'.edits = s.edits) :
    Received startTime s' rank edit' time' image' received := by
  constructor
  · exact h.increasing
  · rw [hedits]
    exact h.contexts
  · rw [hidle]
    rfl
  · exact fun hne => absurd hidle hne
  · intro hlength
    rw [hedits]
    obtain hnil | ⟨i, j, config, hlast, hedit, hi, hle, heq⟩ := h.idle hlength
    · exact .inl hnil
    · right
      obtain ⟨j', hj'⟩ : ∃ j', edit' = some j' := by
        cases hcase : edit' with
        | none =>
          rw [hnone hcase] at hedit
          cases hedit
        | some j' => exact ⟨j', rfl⟩
      obtain ⟨configj, hj, -⟩ := hshared.isImage.config j hedit
      obtain ⟨configj', hgetj', -⟩ := himage.config j' hj'
      have htime := hlt j' hj'
      have hcur : rank.curTime ≤ time := hshared.le_of_le hi hj hle
      have hjj' : j < j' := hshared.lt_of_lt hj hgetj' htime
      exact ⟨i, j', config, hlast, hj', hi, by omega, fun hsame => by omega⟩
  · intro hlength
    rw [hidle] at hlength
    exact absurd hlength (by decide)
  · rw [hedits]
    exact h.begun_le
  · exact fun hne => absurd hidle hne
  · rw [hedits]
    exact h.stepped_le
  · rw [hedits]
    exact h.stepped

/-! ### Steps of the rank -/

/-- Earlier received edits come before the last one. -/
theorem le_of_getLast? {received : List ℕ} (h : received.Pairwise (· < ·)) {i k : ℕ}
    (hi : received.getLast? = some i) (hk : k ∈ received) : k ≤ i := by
  obtain ⟨init, rfl⟩ := List.getLast?_eq_some_iff.mp hi
  rw [List.pairwise_append] at h
  rcases List.mem_append.mp hk with hk | hk
  · exact (h.2.2 k hk i (List.mem_singleton_self i)).le
  · exact (List.mem_singleton.mp hk).le

/-- A rank that has seen a newer time is going to receive a newer edit. -/
theorem TimeInv.accept {curTime : ℕ} (h : TimeInv s.edits startTime curTime edit time received)
    (hshared : Shared params startTime s edit time image) (hincreasing : received.Pairwise (· < ·))
    (hnewer : curTime < time) : ∃ j, edit = some j ∧ ∀ i ∈ received, i < j := by
  obtain ⟨j, hj⟩ : ∃ j, edit = some j := by
    cases hcase : edit with
    | none =>
      have hzero := hshared.isImage.older hcase
      omega
    | some j => exact ⟨j, rfl⟩
  refine ⟨j, hj, fun k hk => ?_⟩
  obtain ⟨rfl, -⟩ | ⟨i, j', config, hlast, hedit, hi, -, -⟩ := h
  · cases hk
  · obtain ⟨config', hconfig', -⟩ := hshared.isImage.config j hj
    have hij : i < j := hshared.lt_of_lt hi hconfig' hnewer
    exact (le_of_getLast? hincreasing hlast hk).trans_lt hij

/-- A rank that has seen no newer time has received the last edit if the image is of it. -/
theorem TimeInv.upToDate {curTime : ℕ} (h : TimeInv s.edits startTime curTime edit time received)
    (hshared : Shared params startTime s edit time image) (hold : time ≤ curTime) (hne : s.edits ≠ [])
    (hedit : UpToDate s.edits edit) : received.getLast? = some (s.edits.length - 1) := by
  have hlast := hedit hne
  obtain ⟨config, hconfig, -⟩ := hshared.isImage.config _ hlast
  obtain ⟨-, rfl⟩ | ⟨i, j, config', hi, hj, hgeti, hle, heq⟩ := h
  · have hlater := hshared.later _ (List.mem_of_getElem? hconfig)
    exact absurd hold (by omega)
  · obtain rfl : j = s.edits.length - 1 := Option.some.inj (hj.symm.trans hlast)
    have hcur : curTime ≤ time := hshared.le_of_le hgeti hconfig hle
    rw [hi, heq (by omega)]

/-- The bytes that are read are the next ones of the image. -/
theorem Received.bytes_append (h : Received startTime s rank edit time image received)
    (hshared : Shared params startTime s edit time image) (hwritten : written s.monitor = []) {count : ℕ}
    (hle : rank.bytes.length + count ≤ params.maxSize) :
    rank.bytes ++ (s.buf.drop rank.bytes.length).take count = image.take (rank.bytes.length + count) ∧
      (image.take (rank.bytes.length + count)).length = rank.bytes.length + count := by
  have hbuf := hshared.buf
  rw [hwritten, List.nil_append, List.length_nil, List.drop_zero] at hbuf
  refine ⟨?_, ?_⟩
  · rw [hbuf, List.take_add, ← h.bytes]
  · rw [List.length_take, hshared.isImage.length]
    omega

theorem Received.readTime (h : Received startTime s rank edit time image received)
    (hshared : Shared params startTime s edit time image) (hwritten : written s.monitor = [])
    (hlength : rank.bytes.length < 4) {count : ℕ} (hle : rank.bytes.length + count ≤ 4) :
    Received startTime s (rank.readTime ((s.buf.drop rank.bytes.length).take count) s.polled) edit time image
      received := by
  have hsize : 4 ≤ params.maxSize := (Nat.le_add_right _ _).trans params.length_defaultBytes
  obtain ⟨hbytes, hbytesLength⟩ := h.bytes_append hshared hwritten (hle.trans hsize)
  have htime := h.idle hlength
  rw [Rank.readTime, hbytes, hbytesLength]
  set begun := if rank.bytes = [] then s.polled else rank.begun with hbegun
  have hbegunLe : begun ≤ s.edits.length := by
    rw [hbegun]
    split_ifs
    · exact hshared.polled_le
    · exact h.begun_le
  have hbegunLast : begun = s.edits.length → UpToDate s.edits edit := by
    rw [hbegun]
    split_ifs with hidle
    · exact hshared.polled
    · exact h.begun hidle
  dsimp only
  split_ifs with hmore hold
  · exact ⟨h.increasing, h.contexts, by rw [hbytesLength], fun _ => hwritten, fun _ => htime,
      fun hfull => absurd hfull (by rw [hbytesLength]; omega), hbegunLe, fun _ => hbegunLast, h.stepped_le,
      h.stepped⟩
  · -- The time is not newer.
    have hheader := hshared.isImage.header
    rw [show rank.bytes.length + count = 4 by omega, hheader] at hold
    exact ⟨h.increasing, h.contexts, rfl, fun hne => absurd rfl hne, fun _ => htime, nofun, hbegunLe,
      fun hne => absurd rfl hne, hbegunLe,
      fun hne hstepped => htime.upToDate hshared hold hne (hbegunLast hstepped)⟩
  · have hheader := hshared.isImage.header
    have hfour : rank.bytes.length + count = 4 := by omega
    rw [hfour, hheader] at hold ⊢
    have haccept := htime.accept hshared h.increasing (by omega)
    have hfull : (image.take 4).length = 4 := by rw [← hfour, hbytesLength]
    exact ⟨h.increasing, h.contexts, by rw [hfull], fun _ => hwritten,
      fun hlt => absurd hlt (by rw [hfull]; exact lt_irrefl 4), fun _ => ⟨rfl, haccept⟩, hbegunLe,
      fun _ => hbegunLast, h.stepped_le, h.stepped⟩

theorem Received.readConfig (h : Received startTime s rank edit time image received)
    (hshared : Shared params startTime s edit time image) (hwritten : written s.monitor = [])
    (hlength : 4 ≤ rank.bytes.length) {count : ℕ} (hle : rank.bytes.length + count ≤ params.maxSize) :
    ∃ received', Received startTime s (rank.readConfig params ((s.buf.drop rank.bytes.length).take count)) edit time
      image received' := by
  obtain ⟨hbytes, hbytesLength⟩ := h.bytes_append hshared hwritten hle
  obtain ⟨hcur, j, hj, hlt⟩ := h.accepted hlength
  have hreading : rank.bytes ≠ [] := List.ne_nil_of_length_pos (by omega)
  rw [Rank.readConfig, hbytes, hbytesLength]
  split_ifs with hmore
  · refine ⟨received, h.increasing, h.contexts, by rw [hbytesLength], fun _ => hwritten, fun hshort => ?_,
      fun _ => ⟨hcur, j, hj, hlt⟩, h.begun_le, fun _ => h.begun hreading, h.stepped_le, h.stepped⟩
    exact absurd hshort (by rw [hbytesLength]; omega)
  · -- The image has been read.
    obtain ⟨config, hconfig, hparse⟩ := hshared.isImage.config j hj
    have hall : image.take (rank.bytes.length + count) = image := by
      rw [List.take_of_length_le]
      rw [hshared.isImage.length]
      omega
    rw [hall, hparse]
    refine ⟨received ++ [j], ?_, ?_, rfl, fun hne => absurd rfl hne, fun _ => .inr ⟨j, j, config, ?_, hj, ?_,
      Nat.le_refl _, fun _ => rfl⟩, nofun, h.begun_le, fun hne => absurd rfl hne, h.begun_le, ?_⟩
    · rw [List.pairwise_append]
      refine ⟨h.increasing, List.pairwise_singleton _ _, fun i hi k hk => ?_⟩
      rw [List.mem_singleton.mp hk]
      exact hlt i hi
    · rw [List.map_append, List.map_append, h.contexts, List.map_singleton, hconfig]
      rfl
    · exact List.getLast?_concat
    · rw [hconfig, hcur]
    · intro hne hstepped
      rw [List.getLast?_concat, ← hj]
      exact h.begun hreading hstepped hne

/-- The ranks do not matter for the rest of the state. -/
theorem Shared.setRanks (h : Shared params startTime s edit time image) (ranks : Fin worldSize → Rank C) :
    Shared params startTime { s with ranks } edit time image :=
  ⟨h.sorted, h.later, h.fits, h.isImage, h.buf, h.time_le, h.fileT_le, h.unedited, h.polled_le, h.polled,
    h.monitor⟩

/-! ### Whole runs -/

/-- The invariant for one rank. -/
def Inv (params : MonitorParams C) (startTime : Fin worldSize → ℕ) (rank : Fin worldSize)
    (s : DynamicProfile C worldSize) : Prop :=
  ∃ edit time image received, Shared params (startTime rank) s edit time image ∧
    Received (startTime rank) s (s.ranks rank) edit time image received

theorem inv_start (params : MonitorParams C) (file : C × ℕ) (startTime : Fin worldSize → ℕ)
    (rank : Fin worldSize) : Inv params startTime rank (start params file startTime) := by
  have hlength : (leEncode 4 0 ++ params.defaultBytes).length ≤ params.maxSize := by
    rw [List.length_append, length_leEncode]
    exact params.length_defaultBytes
  refine ⟨none, 0, ljust params.maxSize (leEncode 4 0 ++ params.defaultBytes), [], ?_, ?_⟩
  · refine ⟨List.Pairwise.nil, nofun, nofun, ⟨length_ljust hlength, ?_, nofun, fun _ => rfl⟩, rfl, Nat.zero_le _,
      Nat.le_refl _, fun _ => rfl, Nat.le_refl _, fun _ hne => absurd rfl hne, fun _ hne => absurd rfl hne⟩
    rw [ljust, List.append_assoc, List.take_left' (length_leEncode 4 0), leDecode_leEncode_of_lt (by decide)]
  · exact ⟨List.Pairwise.nil, rfl, rfl, fun hne => absurd rfl hne, fun _ => .inl ⟨rfl, rfl⟩, nofun, Nat.le_refl _,
      fun hne => absurd rfl hne, Nat.le_refl _, fun hne => absurd rfl hne⟩

theorem Inv.next {startTime : Fin worldSize → ℕ} {rank : Fin worldSize} (h : Inv params startTime rank s)
    {l : ProfileLabel C worldSize} (hcareful : s.Careful params startTime l)
    (hnext : s.next params l = some s') : Inv params startTime rank s' := by
  obtain ⟨edit, time, image, received, hshared, hreceived⟩ := h
  cases l with
  | edit config newTime =>
    rw [DynamicProfile.next] at hnext
    split_ifs at hnext with hfile
    cases hnext
    obtain ⟨hfits, htime, hlater, hfresh⟩ := hcareful
    exact ⟨edit, time, image, received, hshared.append hfits htime (hlater rank) hfile hfresh,
      hreceived.append _⟩
  | getmtime =>
    rw [DynamicProfile.next] at hnext
    split_ifs at hnext with hpolling
    cases hnext
    obtain ⟨hshared', hwritten⟩ := hshared.getmtime hpolling
    refine ⟨edit, time, image, received, hshared', ?_⟩
    have hsame : s.getmtime.edits = s.edits ∧ s.getmtime.ranks = s.ranks := by
      rw [DynamicProfile.getmtime]
      split_ifs <;> exact ⟨rfl, rfl⟩
    rw [hsame.2]
    exact hreceived.frame hsame.1 fun hne => hwritten.trans (hreceived.reading hne)
  | readFile =>
    cases hmonitor : s.monitor with
    | loading seen =>
      have hread : s' = s.readFile params seen := by
        simpa [DynamicProfile.next, hmonitor] using hnext.symm
      obtain ⟨hshared', hwritten⟩ := hshared.readFile hmonitor
      have hsame : s'.edits = s.edits ∧ s'.ranks = s.ranks := by
        rw [hread, DynamicProfile.readFile]
        dsimp only
        split_ifs <;> exact ⟨rfl, rfl⟩
      rw [← hread] at hshared' hwritten
      refine ⟨edit, time, image, received, hshared', ?_⟩
      rw [hsame.2]
      exact hreceived.frame hsame.1 fun hne => hwritten.trans (hreceived.reading hne)
    | polling | writing | dead => simp [DynamicProfile.next, hmonitor] at hnext
  | writeBytes count =>
    cases hmonitor : s.monitor with
    | writing seen bytes done =>
      obtain ⟨hle, hwrite⟩ : done + count ≤ bytes.length ∧ s.writeBytes seen bytes done count = s' := by
        simpa [DynamicProfile.next, hmonitor] using hnext
      have hsame : s'.edits = s.edits ∧ s'.ranks = s.ranks := by
        rw [← hwrite, DynamicProfile.writeBytes]
        dsimp only
        split_ifs <;> exact ⟨rfl, rfl⟩
      have hidle : (s.ranks rank).bytes = [] := hcareful rank
      rcases Nat.lt_or_eq_of_le hle with hlt | heq
      · have hshared' := hshared.writeBytes_of_lt hmonitor hlt
        rw [hwrite] at hshared'
        refine ⟨edit, time, image, received, hshared', ?_⟩
        rw [hsame.2]
        exact hreceived.frame hsame.1 fun hne => absurd hidle hne
      · obtain ⟨edit', hshared', hlt, hnone⟩ := hshared.writeBytes_of_eq hmonitor heq
        rw [hwrite] at hshared'
        refine ⟨edit', s.lastFileT, bytes, received, hshared', ?_⟩
        rw [hsame.2]
        have himage := hshared'.isImage
        rw [hsame.1] at himage
        exact hreceived.complete hshared hidle himage hlt hnone hsame.1
    | polling | loading | dead => simp [DynamicProfile.next, hmonitor] at hnext
  | readBytes other count =>
    rw [DynamicProfile.next] at hnext
    obtain ⟨hle, hnext⟩ := Option.ite_none_right_eq_some.mp hnext
    cases hnext
    by_cases hother : rank = other
    · subst hother
      have hwritten : written s.monitor = [] := by
        by_cases hidle : (s.ranks rank).bytes = []
        · have hmonitor := hcareful hidle
          revert hmonitor
          cases s.monitor with
          | writing seen bytes done =>
            rintro rfl
            rfl
          | polling | loading | dead => exact fun _ => rfl
        · exact hreceived.reading hidle
      have hrank : (s.readBytes params rank count).ranks rank =
          if (s.ranks rank).bytes.length < 4 then
            (s.ranks rank).readTime ((s.buf.drop (s.ranks rank).bytes.length).take count) s.polled
          else (s.ranks rank).readConfig params ((s.buf.drop (s.ranks rank).bytes.length).take count) :=
        Function.update_self _ _ _
      by_cases hlength : (s.ranks rank).bytes.length < 4
      · rw [if_pos hlength] at hle hrank
        have hread := hreceived.readTime hshared hwritten hlength hle
        refine ⟨edit, time, image, received, hshared.setRanks _, ?_⟩
        rw [hrank]
        exact hread.frame rfl fun _ => hwritten
      · rw [if_neg hlength] at hle hrank
        obtain ⟨received', hread⟩ := hreceived.readConfig hshared hwritten (not_lt.mp hlength) hle
        refine ⟨edit, time, image, received', hshared.setRanks _, ?_⟩
        rw [hrank]
        exact hread.frame rfl fun _ => hwritten
    · refine ⟨edit, time, image, received, hshared.setRanks _, ?_⟩
      rw [show (s.readBytes params other count).ranks rank = s.ranks rank from Function.update_of_ne hother _ _]
      exact hreceived.frame rfl hreceived.reading

/-- In a run whose steps are careful, the configs are delivered. -/
theorem configs_delivered_of_careful {params : MonitorParams C} {file : C × ℕ} {startTime : Fin worldSize → ℕ}
    {ls : List (ProfileLabel C worldSize)}
    (hcareful : Machine.Guarded (DynamicProfile.next · params) (Careful params startTime)
      (start params file startTime) ls)
    (hrun : runFromStart params file startTime ls = some s) : s.Delivered := by
  intro rank
  have hinv : Inv params startTime rank s :=
    Machine.guarded_run_induction (fun _ _ _ h hG hnext => h.next hG hnext)
      (inv_start params file startTime rank) hcareful hrun
  obtain ⟨edit, time, image, received, -, hreceived⟩ := hinv
  exact ⟨received, hreceived.increasing, hreceived.contexts, hreceived.stepped⟩

/-! ### Runs -/

/-- Configs as texts, between braces. -/
abbrev TextConfig := { text : List UInt8 // text.head? = some 123 ∧ text.getLast? = some 125 }

/-- Remove the white space at the end. -/
def rstrip (bytes : List UInt8) : List UInt8 :=
  (bytes.reverse.dropWhile fun b => decide (b = 32)).reverse

theorem rstrip_append_replicate {text : List UInt8} (h : text.getLast? = some 125) (spaces : ℕ) :
    rstrip (text ++ List.replicate spaces 32) = text := by
  obtain ⟨init, rfl⟩ := List.getLast?_eq_some_iff.mp h
  rw [rstrip, List.reverse_append, List.reverse_replicate, List.dropWhile_append_of_pos]
  · rw [List.reverse_append]
    simp
  · intro b hb
    exact decide_eq_true (List.eq_of_mem_replicate hb)

/-- The monitor for such texts. -/
def textParams (maxSize : ℕ) (h : 4 ≤ maxSize) : MonitorParams TextConfig where
  toBytes config := config.val
  ofBytes bytes :=
    if h : (rstrip bytes).head? = some 123 ∧ (rstrip bytes).getLast? = some 125 then some ⟨rstrip bytes, h⟩
    else none
  head_toBytes config := config.property.1
  ofBytes_toBytes config spaces := by
    have hstrip := rstrip_append_replicate config.property.2 spaces
    simp [hstrip, config.property]
  maxSize := maxSize
  defaultBytes := []
  length_defaultBytes := h

/-- A config of so many active steps, as a text. -/
def activeConfig (active : Char) : TextConfig :=
  ⟨(['\x7b'] ++ "\"active\": ".toList ++ [active, '\x7d']).map fun c => UInt8.ofNat c.toNat, by simp, by simp⟩

local instance someRanks : NeZero 2 := inferInstance

/-- Two edits; the second one is made while a rank reads the first one. -/
def orderlyEdits : List (ProfileLabel TextConfig 2) :=
  [.edit (activeConfig '1') 1010, .getmtime, .readFile, .writeBytes 10, .writeBytes 22, .readBytes 0 4,
    .readBytes 0 28, .readBytes 1 4, .edit (activeConfig '2') 1020, .getmtime, .readFile, .readBytes 1 28,
    .writeBytes 32, .readBytes 0 4, .readBytes 0 28, .readBytes 1 4, .readBytes 1 28]

theorem delivered_orderlyEdits :
    ∃ s : DynamicProfile TextConfig 2,
      runFromStart (textParams 32 (by decide)) (activeConfig '0', 900) (fun _ => 1000) orderlyEdits = some s ∧
      s.Delivered ∧ ∀ rank, (s.ranks rank).contexts = [activeConfig '1', activeConfig '2'] := by
  have hrun : ((runFromStart (textParams 32 (by decide)) (activeConfig '0', 900) (fun _ => 1000)
      orderlyEdits).any fun s =>
        decide (∀ rank, (s.ranks rank).contexts = [activeConfig '1', activeConfig '2'])) = true := by
    decide +kernel
  have hcareful : Machine.Guarded (DynamicProfile.next · (textParams 32 (by decide)))
      (Careful (textParams 32 (by decide)) fun _ => 1000)
      (start (textParams 32 (by decide)) (activeConfig '0', 900) fun _ => 1000) orderlyEdits := by
    decide +kernel
  obtain ⟨s, hs, h⟩ := (Option.any_eq_true _ _).mp hrun
  exact ⟨s, hs, configs_delivered_of_careful hcareful hs, of_decide_eq_true h⟩

/-- An edit that is not later than the start of a rank is written, and the rank does not look at it. -/
theorem not_delivered_of_le_startTime {file : C × ℕ} {config : C} {time : ℕ} {startTime : Fin worldSize → ℕ}
    {rank : Fin worldSize} (htime : time < 256 ^ 4) (hfits : 4 + (params.toBytes config).length ≤ params.maxSize)
    (hfile : file.2 < time) (hstart : time ≤ startTime rank) :
    ∃ s, runFromStart params file startTime
        [.edit config time, .getmtime, .readFile, .writeBytes params.maxSize, .readBytes rank 4] = some s ∧
      ¬ s.Delivered := by
  set bytes := ljust params.maxSize (leEncode 4 time ++ params.toBytes config) with hbytes
  have hsize : (leEncode 4 time ++ params.toBytes config).length ≤ params.maxSize := by
    rw [List.length_append, length_leEncode]
    exact hfits
  have hlength : bytes.length = params.maxSize := length_ljust hsize
  have hheader : leDecode (bytes.take 4) = time := by
    rw [hbytes, ljust, List.append_assoc, List.take_left' (length_leEncode 4 time), leDecode_leEncode_of_lt htime]
  have hfour : 4 ≤ params.maxSize := (Nat.le_add_right _ _).trans hfits
  let s₀ : DynamicProfile C worldSize := start params file startTime
  let s₁ : DynamicProfile C worldSize := { s₀ with edits := [(config, time)] }
  let s₂ : DynamicProfile C worldSize := { s₁ with lastFileT := time, monitor := .loading 1 }
  let s₃ : DynamicProfile C worldSize := { s₂ with monitor := .writing 1 bytes 0 }
  let s₄ : DynamicProfile C worldSize := { s₃ with buf := bytes, monitor := .polling, polled := 1 }
  let s₅ : DynamicProfile C worldSize := s₄.readBytes params rank 4
  have h₁ : s₀.next params (.edit config time) = some s₁ := if_pos hfile.le
  have h₂ : s₁.next params .getmtime = some s₂ := by
    have hgetmtime : s₁.getmtime = s₂ := if_pos (.inr hfile.ne)
    have hpolling : s₁.monitor = .polling := rfl
    have hnext : s₁.next params .getmtime = if s₁.monitor = .polling then some s₁.getmtime else none := rfl
    rw [hnext, if_pos hpolling, hgetmtime]
  have h₃ : s₂.next params .readFile = some s₃ := by
    have hread : s₂.readFile params 1 = s₃ := by
      rw [readFile, if_neg (not_le.mpr htime)]
      exact if_neg (not_lt.mpr hsize)
    exact congrArg some hread
  have h₄ : s₃.next params (.writeBytes params.maxSize) = some s₄ := by
    have hwrite : s₃.writeBytes 1 bytes 0 params.maxSize = s₄ := by
      have hbuf : bytes.take (0 + params.maxSize) ++ s₃.buf.drop (0 + params.maxSize) = bytes := by
        have hdefault : s₃.buf.length = params.maxSize := by
          apply length_ljust
          rw [List.length_append, length_leEncode]
          exact params.length_defaultBytes
        rw [Nat.zero_add, List.drop_eq_nil_of_le hdefault.le, ← hlength, List.take_length, List.append_nil]
      rw [writeBytes, hbuf]
      exact if_neg (by omega)
    exact (if_pos (by omega)).trans (congrArg some hwrite)
  have h₅ : s₄.next params (.readBytes rank 4) = some s₅ := by
    have hread : (0 : ℕ) + 4 ≤ if (0 : ℕ) < 4 then 4 else params.maxSize := by simp
    have hnext : s₄.next params (.readBytes rank 4) =
        if (0 : ℕ) + 4 ≤ if (0 : ℕ) < 4 then 4 else params.maxSize then some s₅ else none := rfl
    rw [hnext, if_pos hread]
  refine ⟨s₅, Machine.run_cons.mpr ⟨s₁, h₁, Machine.run_cons.mpr ⟨s₂, h₂, Machine.run_cons.mpr ⟨s₃, h₃,
    Machine.run_cons.mpr ⟨s₄, h₄, Machine.run_cons.mpr ⟨s₅, h₅, rfl⟩⟩⟩⟩⟩, fun hdelivered => ?_⟩
  have hrank : s₅.ranks rank = { curTime := startTime rank, begun := 1, stepped := 1 } := by
    have hread : (Rank.readTime { curTime := startTime rank } (bytes.take 4) 1 : Rank C) =
        { curTime := startTime rank, begun := 1, stepped := 1 } := by
      have hbytes' : (bytes.take 4).length = 4 := by
        rw [List.length_take]
        omega
      rw [Rank.readTime, List.nil_append, hbytes', hheader]
      exact if_pos hstart
    rw [← hread]
    exact Function.update_self _ _ _
  obtain ⟨received, -, hcontexts, hlast⟩ := hdelivered rank
  rw [hrank] at hcontexts hlast
  have hnil : received = [] := List.map_eq_nil_iff.mp hcontexts
  rw [hnil] at hlast
  exact absurd (hlast (List.cons_ne_nil _ _) rfl) nofun

theorem not_delivered_editAtStart :
    ∃ s, runFromStart (textParams (1024 * 1024) (by decide)) (activeConfig '0', 900) (fun _ : Fin 1 => 1000)
        [.edit (activeConfig '1') 1000, .getmtime, .readFile, .writeBytes (1024 * 1024), .readBytes 0 4] =
          some s ∧ ¬ s.Delivered :=
  not_delivered_of_le_startTime (by decide) (by decide) (by decide) (by decide)

end TorchNpu.Profiler.DynamicProfile

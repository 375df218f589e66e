import RobotCode.Lib.Fallible

/-!
# Consistent overhead byte stuffing

The encoder replaces every zero of the data by the distance to the next one, so that a zero can end a packet. It
leaves room for the distance when a run of other bytes starts and fills it in when the run ends. `stuff` says what
comes out of this in terms of the run that is open, and decoding it gives the data back.

The packetizer cuts a stream of bytes at the zeros. It has two buffers, so that the packet that was completed last
can be looked at while the next one comes in.
-/

namespace RobotCode.Jevois

open List hiding Vector

def cobsMaxEncodedSize (decodedSize : Nat) : Nat := decodedSize + (decodedSize + 253) / 254

/-- `__builtin_trap()` -/
inductive Trap where
  | trap
  deriving DecidableEq, Repr

/-! ### Encoding -/

/-- The state of the loop in `CobsEncode`. The byte at `codePointer` is not written yet. -/
structure Encoder where
  output : List UInt8
  codePointer : Nat
  code : UInt8
  deriving DecidableEq, Repr

namespace Encoder

def initial : Encoder := ⟨[0], 0, 1⟩

def endRun (e : Encoder) : Encoder :=
  ⟨e.output.set e.codePointer e.code ++ [0], e.output.length, 1⟩

def push (e : Encoder) (b : UInt8) : Encoder := { e with output := e.output ++ [b], code := e.code + 1 }

/-- One byte of the input. -/
def step (size : Nat) (e : Encoder) (b : UInt8) : Except Trap Encoder :=
  if size ≤ e.output.length then .error .trap
  else if b = 0 then .ok e.endRun
  else
    let e := e.push b
    .ok (if e.code = 0xFF then e.endRun else e)

end Encoder

def cobsEncode (maxDecodedSize : Nat) (input : List UInt8) : Except Trap (List UInt8) :=
  if maxDecodedSize < input.length then .error .trap
  else do
    let e ← input.foldlM (Encoder.step (cobsMaxEncodedSize maxDecodedSize)) .initial
    if cobsMaxEncodedSize maxDecodedSize < e.output.length then .error .trap
    else .ok (e.output.set e.codePointer e.code)

/-- The positions of the output buffer that one byte of the input makes the loop write to. -/
def Encoder.writes (e : Encoder) (b : UInt8) : List Nat :=
  if b = 0 then [e.codePointer]
  else e.output.length :: if (e.push b).code = 0xFF then [e.codePointer] else []

/-- The positions that are written from some point of the loop on, up to the first trap. -/
def loopWrites (size : Nat) : Encoder → List UInt8 → List Nat
  | e, [] => [e.codePointer]
  | e, b :: input =>
    match e.step size b with
    | .error _ => []
    | .ok e' => e.writes b ++ loopWrites size e' input

def cobsEncodeWrites (maxDecodedSize : Nat) (input : List UInt8) : List Nat :=
  if maxDecodedSize < input.length then []
  else loopWrites (cobsMaxEncodedSize maxDecodedSize) .initial input

def runCode (run : List UInt8) : UInt8 := UInt8.ofNat (run.length + 1)

/-- The encoded form of data that comes after the bytes of an open run. -/
def stuff : List UInt8 → List UInt8 → List UInt8
  | run, [] => runCode run :: run
  | run, b :: data =>
    if b = 0 then runCode run :: run ++ stuff [] data
    else if run.length + 2 = 0xFF then 0xFF :: run ++ b :: stuff [] data
    else stuff (run ++ [b]) data

theorem toNat_runCode (run : List UInt8) (h : run.length < 0xFF) : (runCode run).toNat = run.length + 1 := by
  rw [runCode, UInt8.toNat_ofNat', Nat.mod_eq_of_lt (by omega)]

theorem length_le_length_stuff (run data : List UInt8) : run.length + data.length + 1 ≤ (stuff run data).length := by
  fun_induction stuff run data with
  | case1 run => simp
  | case2 run data ih | case3 run b data hb hrun ih | case4 run b data hb hrun ih =>
    simp only [length_append, length_cons, length_nil] at ih ⊢
    omega

variable {run input : List UInt8} {maxDecodedSize : Nat}

/-- A code is added for each 254 bytes that are not zero, and one for the first run. -/
theorem length_stuff_le (run data : List UInt8) :
    254 * (stuff run data).length + data.count 0 ≤ 255 * (run.length + data.length) + 254 := by
  fun_induction stuff run data with
  | case1 run =>
    simp only [length_cons, length_nil, count_nil]
    omega
  | case2 run data ih =>
    simp only [length_append, length_cons, length_nil, count_cons_self] at ih ⊢
    omega
  | case3 run b data hb hrun ih | case4 run b data hb hrun ih =>
    simp only [length_append, length_cons, length_nil, count_cons_of_ne hb] at ih ⊢
    omega

theorem length_stuff_of_notMem (run : List UInt8) {data : List UInt8} (hrun : run.length < 0xFE) (hzero : 0 ∉ data) :
    (stuff run data).length = run.length + data.length + 1 + (run.length + data.length) / 254 := by
  fun_induction stuff run data with
  | case1 run =>
    simp only [length_cons, length_nil]
    omega
  | case2 run data ih => simp at hzero
  | case3 run b data hb hlong ih =>
    simp only [length_append, length_cons, length_nil, ih (by simp) (not_mem_of_not_mem_cons hzero)]
    omega
  | case4 run b data hb hlong ih =>
    simp only [length_append, length_cons, length_nil] at ih ⊢
    rw [ih (by omega) (not_mem_of_not_mem_cons hzero)]
    omega

theorem length_stuff {data : List UInt8} (h : run.length + data.length < 0xFE) :
    (stuff run data).length = run.length + data.length + 1 := by
  have hle := length_stuff_le run data
  have hge := length_le_length_stuff run data
  omega

/-- Only data without a zero that fills the last run needs more than there is room for. -/
theorem length_stuff_le_iff (hinput : input.length ≤ maxDecodedSize) :
    (stuff [] input).length ≤ cobsMaxEncodedSize maxDecodedSize ↔
      ¬ (input.length = maxDecodedSize ∧ 254 ∣ maxDecodedSize ∧ 0 ∉ input) := by
  have hle := length_stuff_le [] input
  rw [length_nil, Nat.zero_add] at hle
  unfold cobsMaxEncodedSize
  by_cases hzero : 0 ∈ input
  · have hcount := count_pos_iff.mpr hzero
    simp only [hzero, not_true_eq_false, and_false, not_false_iff, iff_true]
    omega
  · have heq := length_stuff_of_notMem [] (by simp) hzero
    simp only [hzero, not_false_iff, and_true]
    omega

theorem runCode_ne_zero (h : run.length < 0xFF) : runCode run ≠ 0 := by
  intro hzero
  have hnat := toNat_runCode run h
  rw [hzero] at hnat
  simp at hnat

theorem zero_notMem_stuff {data : List UInt8} (hrun : run.length < 0xFE) (hzero : 0 ∉ run) : 0 ∉ stuff run data := by
  fun_induction stuff run data with
  | case1 run => simp [hzero, (runCode_ne_zero (show run.length < 0xFF by omega)).symm]
  | case2 run data ih =>
    simp [hzero, (runCode_ne_zero (show run.length < 0xFF by omega)).symm, ih (by simp) (by simp)]
  | case3 run b data hb hlong ih => simp [hzero, Ne.symm hb, ih (by simp) (by simp)]
  | case4 run b data hb hlong ih =>
    refine ih ?_ ?_
    · simp only [length_append, length_cons, length_nil]
      omega
    · simp [hzero, Ne.symm hb]

def Encoder.open (done run : List UInt8) : Encoder := ⟨done ++ 0 :: run, done.length, runCode run⟩

theorem Encoder.open_set (done run : List UInt8) :
    (Encoder.open done run).output.set (Encoder.open done run).codePointer (Encoder.open done run).code =
      done ++ runCode run :: run := by
  simp [Encoder.open]

theorem Encoder.open_endRun (done run : List UInt8) :
    (Encoder.open done run).endRun = Encoder.open (done ++ runCode run :: run) [] := by
  unfold endRun
  simp [Encoder.open, runCode]

theorem runCode_append (run : List UInt8) (b : UInt8) : runCode (run ++ [b]) = runCode run + 1 := by
  rw [runCode, runCode, length_append, UInt8.ofNat_add]
  rfl

theorem runCode_eq_iff (h : run.length < 0xFF) : runCode run = 0xFF ↔ run.length + 1 = 0xFF := by
  rw [← UInt8.toNat_inj, toNat_runCode run h]
  rfl

theorem step_stuff {size : Nat} {done : List UInt8} (b : UInt8) (data : List UInt8) (hrun : run.length < 0xFE)
    (hroom : done.length + run.length + 1 < size) :
    ∃ done' run', run'.length < 0xFE ∧ done' ++ stuff run' data = done ++ stuff run (b :: data) ∧
      Encoder.step size (Encoder.open done run) b = .ok (Encoder.open done' run') := by
  have hsize : ¬ size ≤ (Encoder.open done run).output.length := by
    simp only [Encoder.open, length_append, length_cons]
    omega
  rw [stuff, Encoder.step, if_neg hsize]
  by_cases hb : b = 0
  · rw [if_pos hb, if_pos hb, Encoder.open_endRun]
    exact ⟨_, _, by simp, append_assoc .., rfl⟩
  · have hopen : (Encoder.open done run).push b = Encoder.open done (run ++ [b]) := by
      simp [Encoder.open, Encoder.push, runCode_append]
    have hlength : (run ++ [b]).length = run.length + 1 := by simp
    have hiff : (Encoder.open done (run ++ [b])).code = 0xFF ↔ run.length + 2 = 0xFF := by
      rw [show (Encoder.open done (run ++ [b])).code = runCode (run ++ [b]) from rfl, runCode_eq_iff (by omega), hlength]
    rw [if_neg hb, if_neg hb, hopen]
    dsimp only
    by_cases hlong : run.length + 2 = 0xFF
    · have hcode : runCode (run ++ [b]) = 0xFF := hiff.mpr hlong
      rw [if_pos hlong, if_pos (hiff.mpr hlong), Encoder.open_endRun, hcode]
      exact ⟨_, _, by simp, by simp, rfl⟩
    · rw [if_neg hlong, if_neg (mt hiff.mp hlong)]
      exact ⟨_, _, by omega, rfl, rfl⟩

theorem writes_open (done : List UInt8) (b : UInt8) {i : Nat} (hi : i ∈ (Encoder.open done run).writes b) :
    i < done.length + run.length + 2 := by
  have hlength : (Encoder.open done run).output.length = done.length + (run.length + 1) := by simp [Encoder.open]
  have hpointer : (Encoder.open done run).codePointer = done.length := rfl
  simp only [Encoder.writes, hlength, hpointer] at hi
  grind

theorem foldlM_step {size : Nat} (done run data : List UInt8) (hrun : run.length < 0xFE) :
    (data.foldlM (Encoder.step size) (Encoder.open done run) = .error .trap ∧
      size < (done ++ stuff run data).length) ∨
    ∃ done' run', data.foldlM (Encoder.step size) (Encoder.open done run) = .ok (Encoder.open done' run') ∧
      done' ++ runCode run' :: run' = done ++ stuff run data ∧
      ∀ i ∈ loopWrites size (Encoder.open done run) data, i < (done ++ stuff run data).length := by
  induction data generalizing done run with
  | nil =>
    refine .inr ⟨done, run, rfl, by rw [stuff], ?_⟩
    intro i hi
    rw [mem_singleton.mp hi, stuff]
    simp [Encoder.open]
  | cons b data ih =>
    have hlength := length_le_length_stuff run (b :: data)
    rw [length_cons] at hlength
    by_cases hroom : done.length + run.length + 1 < size
    · obtain ⟨done', run', hrun', heq, hstep⟩ := step_stuff b data hrun hroom
      have hrest := ih done' run' hrun'
      rw [heq] at hrest
      rw [foldlM_cons, hstep, loopWrites, hstep]
      refine hrest.imp_right ?_
      rintro ⟨done'', run'', hfold, houtput, hwrites⟩
      refine ⟨done'', run'', hfold, houtput, ?_⟩
      intro i hi
      obtain hi | hi := mem_append.mp hi
      · have hlt := writes_open done b hi
        rw [length_append]
        omega
      · exact hwrites i hi
    · have hfull : size ≤ (Encoder.open done run).output.length := by
        simp only [Encoder.open, length_append, length_cons]
        omega
      refine .inl ⟨?_, ?_⟩
      · rw [foldlM_cons, Encoder.step, if_pos hfull]
        rfl
      · rw [length_append]
        omega

section

variable (hinput : input.length ≤ maxDecodedSize)

include hinput

theorem cobsEncode_spec :
    (cobsEncode maxDecodedSize input = .error .trap ∧
      cobsMaxEncodedSize maxDecodedSize < (stuff [] input).length) ∨
    cobsEncode maxDecodedSize input = .ok (stuff [] input) ∧
      (stuff [] input).length ≤ cobsMaxEncodedSize maxDecodedSize ∧
      ∀ i ∈ cobsEncodeWrites maxDecodedSize input, i < cobsMaxEncodedSize maxDecodedSize := by
  unfold cobsEncode cobsEncodeWrites
  rw [if_neg (by omega), if_neg (by omega)]
  obtain ⟨hfold, hsize⟩ | ⟨done, run, hfold, houtput, hwrites⟩ := foldlM_step [] [] input (by simp)
  · refine .inl ⟨?_, hsize⟩
    rw [show Encoder.initial = Encoder.open [] [] from rfl, hfold]
    rfl
  · rw [nil_append] at houtput hwrites
    have hlength : (Encoder.open done run).output.length = (stuff [] input).length := by
      rw [← houtput]
      simp [Encoder.open]
    rw [show Encoder.initial = Encoder.open [] [] from rfl, hfold]
    by_cases hsize : cobsMaxEncodedSize maxDecodedSize < (stuff [] input).length
    · refine .inl ⟨?_, hsize⟩
      exact if_pos (by omega)
    · refine .inr ⟨?_, by omega, fun i hi => (hwrites i hi).trans_le (by omega)⟩
      rw [← houtput, ← Encoder.open_set]
      exact if_neg (by omega)

theorem cobsEncode_eq (hsize : (stuff [] input).length ≤ cobsMaxEncodedSize maxDecodedSize) :
    cobsEncode maxDecodedSize input = .ok (stuff [] input) := by
  obtain ⟨-, hlong⟩ | ⟨hok, -⟩ := cobsEncode_spec hinput
  · omega
  · exact hok

/-- The output buffer is large enough, except for data of the greatest size that ends with a full run. -/
theorem cobsEncode_fits_iff :
    ((∃ output, cobsEncode maxDecodedSize input = .ok output) ∧
      ∀ i ∈ cobsEncodeWrites maxDecodedSize input, i < cobsMaxEncodedSize maxDecodedSize) ↔
    ¬ (input.length = maxDecodedSize ∧ 254 ∣ maxDecodedSize ∧ 0 ∉ input) := by
  rw [← length_stuff_le_iff hinput]
  obtain ⟨htrap, hlong⟩ | ⟨hok, hsize, hwrites⟩ := cobsEncode_spec hinput
  · refine iff_of_false ?_ (by omega)
    rintro ⟨⟨output, hok⟩, -⟩
    rw [htrap] at hok
    cases hok
  · exact iff_of_true ⟨⟨_, hok⟩, hwrites⟩ hsize

end

theorem cobsEncode_fits_three : ∃ output, cobsEncode 3 [1, 0, 2] = .ok output :=
  ((cobsEncode_fits_iff (by decide)).mpr (by decide)).1

/-- The code of the run after the full one is written behind the end, and then comes the trap. -/
theorem cobsEncode_writes_past_end :
    cobsEncode 254 (replicate 254 1) = .error .trap ∧
      cobsMaxEncodedSize 254 ∈ cobsEncodeWrites 254 (replicate 254 1) := by
  decide +kernel

/-! ### Decoding -/

/-- The inner loop of `CobsDecode`, with the input and the output that are left. It returns when the output is full. -/
def copyRun (maxDecodedSize : Nat) : Nat → List UInt8 → List UInt8 → Except (List UInt8) (List UInt8 × List UInt8)
  | 0, input, output => .ok (input, output)
  | _ + 1, [], output => .ok ([], output)
  | n + 1, b :: input, output =>
    if output.length = maxDecodedSize then .error output else copyRun maxDecodedSize n input (output ++ [b])

theorem copyRun_length {n : Nat} {output input' output' : List UInt8}
    (h : copyRun maxDecodedSize n input output = .ok (input', output')) : input'.length ≤ input.length := by
  fun_induction copyRun maxDecodedSize n input output with
  | case1 | case2 =>
    cases h
    exact le_rfl
  | case3 => cases h
  | case4 n b input output hroom ih => exact (ih h).trans (Nat.le_succ _)

/-- The outer loop of `CobsDecode`. An error is the whole buffer, returned early. -/
def decodeLoop (maxDecodedSize : Nat) : List UInt8 → List UInt8 → Except (List UInt8) (List UInt8)
  | [], output => .ok output
  | code :: input, output =>
    match h : copyRun maxDecodedSize (code.toNat - 1) input output with
    | .error full => .error full
    | .ok (input', output') =>
      if output'.length = maxDecodedSize then .error output'
      else decodeLoop maxDecodedSize input' (if code < 0xFF then output' ++ [0] else output')
  termination_by input => input.length
  decreasing_by exact Nat.lt_succ_of_le (copyRun_length h)

/-- `CobsDecode`. The span of all but the last byte of no output at all is the whole buffer, whatever was in it. -/
def cobsDecode (maxDecodedSize : Nat) (buffer input : List UInt8) : Except Trap (List UInt8) :=
  if cobsMaxEncodedSize maxDecodedSize < input.length then .error .trap
  else
    match decodeLoop maxDecodedSize input [] with
    | .error full => .ok full
    | .ok output => .ok (if output = [] then buffer else output.dropLast)

theorem copyRun_append (run rest output : List UInt8) (hroom : output.length + run.length ≤ maxDecodedSize) :
    copyRun maxDecodedSize run.length (run ++ rest) output = .ok (rest, output ++ run) := by
  induction run generalizing output with
  | nil => rw [length_nil, copyRun, nil_append, append_nil]
  | cons b run ih =>
    rw [length_cons] at hroom
    rw [length_cons, cons_append, copyRun, if_neg (by omega), ih (output ++ [b]) (by simp; omega), append_assoc]
    rfl

theorem decodeLoop_run {code : UInt8} {output : List UInt8} (rest : List UInt8)
    (hcode : code.toNat = run.length + 1) (hroom : output.length + run.length ≤ maxDecodedSize) :
    decodeLoop maxDecodedSize (code :: run ++ rest) output =
      if (output ++ run).length = maxDecodedSize then .error (output ++ run)
      else decodeLoop maxDecodedSize rest (if code < 0xFF then output ++ run ++ [0] else output ++ run) := by
  have hcopy := copyRun_append run rest output hroom
  rw [cons_append, decodeLoop]
  rw [show code.toNat - 1 = run.length by omega]
  split
  · rename_i full hfull
    rw [hcopy] at hfull
    cases hfull
  · rename_i input' output' hok
    rw [hcopy] at hok
    cases hok
    rfl

theorem runCode_lt (h : run.length < 0xFE) : runCode run < 0xFF := by
  rw [UInt8.lt_iff_toNat_lt, toNat_runCode run (by omega)]
  change run.length + 1 < 255
  omega

theorem decodeLoop_stuff (maxDecodedSize : Nat) (run data output : List UInt8) (hrun : run.length < 0xFE)
    (hroom : (output ++ run ++ data).length ≤ maxDecodedSize) :
    decodeLoop maxDecodedSize (stuff run data) output =
      if (output ++ run ++ data).length = maxDecodedSize then .error (output ++ run ++ data)
      else .ok (output ++ run ++ data ++ [0]) := by
  fun_induction stuff run data generalizing output with
  | case1 run =>
    simp only [length_append, append_nil] at hroom ⊢
    have hloop := decodeLoop_run [] (toNat_runCode run (by omega)) hroom
    rw [append_nil, if_pos (runCode_lt hrun), decodeLoop, length_append] at hloop
    exact hloop
  | case2 run data ih =>
    simp only [length_append, length_cons] at hroom
    have hnot : (output ++ run).length ≠ maxDecodedSize := by
      rw [length_append]
      omega
    rw [decodeLoop_run _ (toNat_runCode run (by omega)) (by omega), if_neg hnot, if_pos (runCode_lt hrun),
      ih _ (by simp) (by simp; omega)]
    simp
  | case3 run b data hb hlong ih =>
    simp only [length_append, length_cons] at hroom
    have hfull : (0xFF : UInt8).toNat = (run ++ [b]).length + 1 := by
      rw [length_append, length_singleton]
      exact hlong.symm
    have hsplit : 0xFF :: run ++ b :: stuff [] data = 0xFF :: (run ++ [b]) ++ stuff [] data := by simp
    rw [hsplit, decodeLoop_run _ hfull (by rw [length_append, length_singleton]; omega),
      if_neg (by decide : ¬ (0xFF : UInt8) < 0xFF)]
    by_cases hend : (output ++ (run ++ [b])).length = maxDecodedSize
    · -- the buffer is full, so this was the last byte
      have hnil : data = [] := by
        rw [← length_eq_zero_iff]
        simp only [length_append, length_singleton] at hend
        omega
      subst hnil
      simp [hend]
    · rw [if_neg hend, ih _ (by simp) (by simp; omega)]
      simp
  | case4 run b data hb hlong ih =>
    rw [ih _ (by simp; omega) (by simpa using hroom)]
    simp

theorem cobsDecode_stuff (buffer : List UInt8) (hinput : input.length ≤ maxDecodedSize)
    (hsize : (stuff [] input).length ≤ cobsMaxEncodedSize maxDecodedSize) :
    cobsDecode maxDecodedSize buffer (stuff [] input) = .ok input := by
  have hloop := decodeLoop_stuff maxDecodedSize [] input [] (by simp) (by simpa using hinput)
  unfold cobsDecode
  rw [if_neg (by omega), hloop]
  split <;> rename_i hsplit <;> split at hsplit <;> cases hsplit
  · rfl
  · simp

/-- What was encoded has no zero, and decoding it gives the data back. -/
theorem cobsDecode_cobsEncode {output : List UInt8} (h : cobsEncode maxDecodedSize input = .ok output) :
    0 ∉ output ∧ ∀ buffer, cobsDecode maxDecodedSize buffer output = .ok input := by
  have hinput : input.length ≤ maxDecodedSize := by
    by_contra hlong
    unfold cobsEncode at h
    rw [if_pos (by omega)] at h
    cases h
  obtain ⟨htrap, -⟩ | ⟨hok, hsize, -⟩ := cobsEncode_spec hinput
  · rw [htrap] at h
    cases h
  · rw [hok] at h
    cases h
    exact ⟨zero_notMem_stuff (by simp) (by simp), fun buffer => cobsDecode_stuff buffer hinput hsize⟩

theorem cobsDecode_cobsEncode_three : (0 : UInt8) ∉ [2, 1, 2, (2 : UInt8)] ∧
    ∀ buffer, cobsDecode 3 buffer [2, 1, 2, 2] = .ok [1, 0, 2] :=
  cobsDecode_cobsEncode (by decide)

/-- The loops append to what was written, and never write behind the end of the buffer. -/
theorem copyRun_written (n : Nat) (input output : List UInt8) (hroom : output.length ≤ maxDecodedSize) :
    match copyRun maxDecodedSize n input output with
    | .error written | .ok (_, written) => output <+: written ∧ written.length ≤ maxDecodedSize := by
  fun_induction copyRun maxDecodedSize n input output with
  | case1 | case2 | case3 => exact ⟨prefix_rfl, hroom⟩
  | case4 n b input output hnot ih =>
    have hnext := ih (by rw [length_append, length_singleton]; omega)
    revert hnext
    split <;> exact And.imp_left (prefix_append _ _).trans

theorem decodeLoop_written (input output : List UInt8) (hroom : output.length ≤ maxDecodedSize) :
    match decodeLoop maxDecodedSize input output with
    | .error written | .ok written => output <+: written ∧ written.length ≤ maxDecodedSize := by
  fun_induction decodeLoop maxDecodedSize input output with
  | case1 output => exact ⟨prefix_rfl, hroom⟩
  | case2 code input output full hcopy | case3 code input output input' output' hcopy hfull =>
    have hwritten := copyRun_written (code.toNat - 1) input output hroom
    rwa [hcopy] at hwritten
  | case4 code input output input' output' hcopy hnot ih =>
    have hwritten := copyRun_written (code.toNat - 1) input output hroom
    rw [hcopy] at hwritten
    obtain ⟨hpre, hlength⟩ := hwritten
    have hnext : output' <+: (if code < 0xFF then output' ++ [0] else output') := by
      split
      · exact prefix_append _ _
      · exact prefix_rfl
    rw [dite_eq_ite] at ih
    have hrest := ih (by split <;> grind)
    revert hrest
    split <;> exact And.imp_left (hpre.trans hnext).trans

theorem decodeLoop_eq_nil_iff (hmax : 0 < maxDecodedSize) :
    decodeLoop maxDecodedSize input [] = .ok [] ↔ input = [] ∨ input = [0xFF] := by
  have hnonempty : ([] : List UInt8).length ≠ maxDecodedSize := hmax.ne
  constructor
  · intro h
    cases input with
    | nil => exact .inl rfl
    | cons code input =>
      rw [decodeLoop] at h
      split at h
      · cases h
      · rename_i input' output' hcopy
        split at h
        · cases h
        · -- what the first block wrote is still there at the end
          have hwritten := copyRun_written (code.toNat - 1) input [] hmax.le
          have hlater := decodeLoop_written input' (if code < 0xFF then output' ++ [0] else output')
            (show _ ≤ maxDecodedSize by grind)
          rw [h] at hlater
          have hnil := prefix_nil.mp hlater.1
          split at hnil
          · simp at hnil
          · obtain rfl : code = 0xFF := by grind
            cases input with
            | nil => exact .inr rfl
            | cons b input =>
              rw [show (0xFF : UInt8).toNat - 1 = 253 + 1 from rfl, copyRun, if_neg hnonempty] at hcopy
              have hfirst := copyRun_written 253 input ([] ++ [b]) hmax
              rw [hcopy, hnil] at hfirst
              simp at hfirst
  · rintro (rfl | rfl)
    · rw [decodeLoop]
    · simp [copyRun, decodeLoop, hmax.ne]

/-- Only input without anything to write gives the whole buffer as it was before. -/
theorem cobsDecode_written_iff (maxDecodedSize : Nat) (input : List UInt8) (hmax : 0 < maxDecodedSize)
    (hinput : input.length ≤ cobsMaxEncodedSize maxDecodedSize) :
    ∃ written : List UInt8, written.length ≤ maxDecodedSize ∧
      (decodeLoop maxDecodedSize input [] = .error written ∨ decodeLoop maxDecodedSize input [] = .ok written) ∧
      ((∀ buffer : Vector UInt8 maxDecodedSize, ∃ span,
        cobsDecode maxDecodedSize buffer.toList input = .ok span ∧ span <+: written) ↔
          input ≠ [] ∧ input ≠ [0xFF]) := by
  have hwritten := decodeLoop_written input [] hmax.le
  simp only [cobsDecode, if_neg (Nat.not_lt.mpr hinput), ← not_or, ← decodeLoop_eq_nil_iff hmax]
  cases hloop : decodeLoop maxDecodedSize input [] with
  | error written =>
    rw [hloop] at hwritten
    exact ⟨written, hwritten.2, .inl rfl, iff_of_true (fun buffer => ⟨written, rfl, prefix_rfl⟩) (by simp)⟩
  | ok written =>
    rw [hloop] at hwritten
    refine ⟨written, hwritten.2, .inr rfl, ?_⟩
    by_cases hnil : written = []
    · subst hnil
      refine iff_of_false ?_ (by simp)
      intro h
      obtain ⟨span, hspan, hpre⟩ := h (.replicate maxDecodedSize 0)
      rw [prefix_nil.mp hpre] at hspan
      simp at hspan
      omega
    · refine iff_of_true (fun buffer => ⟨written.dropLast, ?_, dropLast_prefix written⟩) (by simpa using hnil)
      simp [hnil]

theorem cobsDecode_written_truncated :
    ∃ span, cobsDecode 3 [9, 9, 9] [4, 1, 2] = .ok span ∧ ∃ written : List UInt8, span <+: written := by
  obtain ⟨written, -, -, hiff⟩ := cobsDecode_written_iff 3 [4, 1, 2] (by decide) (by decide)
  obtain ⟨span, hspan, hpre⟩ := hiff.mpr (by decide) #v[9, 9, 9]
  exact ⟨span, hspan, written, hpre⟩

theorem cobsDecode_returns_old_buffer :
    decodeLoop 3 [0xFF] [] = .ok [] ∧ cobsDecode 3 [7, 8, 9] [0xFF] = .ok [7, 8, 9] := by
  have hloop : decodeLoop 3 [0xFF] [] = .ok [] := (decodeLoop_eq_nil_iff (by decide)).mpr (.inr rfl)
  refine ⟨hloop, ?_⟩
  rw [cobsDecode, if_neg (by decide), hloop]
  rfl

/-! ### Packets -/

/-- `CobsPacketizer`: the buffers, how much of the active one is written, and where the last packet is. -/
structure CobsPacketizer where
  buffers : Bool → List UInt8
  activeIndex : Bool
  written : Nat
  completePacket : Option (Bool × Nat)

namespace CobsPacketizer

def initial {size : Nat} (buffers : Bool → Vector UInt8 size) : CobsPacketizer :=
  ⟨fun index => (buffers index).toList, false, 0, none⟩

variable (p : CobsPacketizer)

def receivedPacket : List UInt8 :=
  match p.completePacket with
  | none => []
  | some (index, length) => (p.buffers index).take length

def clearReceivedPacket : CobsPacketizer := { p with completePacket := none }

def copyData (input : List UInt8) : CobsPacketizer :=
  let active := p.buffers p.activeIndex
  let size := min input.length (active.length - p.written)
  { p with
    buffers := Function.update p.buffers p.activeIndex
      (active.take p.written ++ input.take size ++ active.drop (p.written + size))
    written := p.written + size }

def finishPacket : CobsPacketizer :=
  { p with
    completePacket := some (p.activeIndex, p.written)
    activeIndex := !p.activeIndex
    written := 0 }

/-- `ParseData` after the first packet end, where `rest` is what comes after it. A reverse iterator is its distance
from the end. -/
def parseRest (rest : List UInt8) : CobsPacketizer :=
  match rest.reverse.findIdx? (· = 0) with
  | none => p.copyData rest
  | some 0 =>
    let newStart := 1 + rest.dropLast.reverse.findIdx (· = 0)
    (p.copyData ((rest.drop (rest.length - newStart)).take (newStart - 1))).finishPacket
  | some newStart => p.copyData ((rest.drop (rest.length - newStart)).take newStart)

def parseData (newData : List UInt8) : CobsPacketizer :=
  match newData.findIdx? (· = 0) with
  | none => p.copyData newData
  | some firstEnd =>
    ((p.copyData (newData.take firstEnd)).finishPacket).parseRest (newData.drop (firstEnd + 1))

structure Pending (size : Nat) (p : CobsPacketizer) (bytes : List UInt8) : Prop where
  length : ∀ index, (p.buffers index).length = size
  written : p.written = bytes.length
  content : (p.buffers p.activeIndex).take p.written = bytes

variable {p : CobsPacketizer} {size : Nat} {x y : List UInt8}

section

variable (h : Pending size p x)

include h

theorem Pending.clear : Pending size p.clearReceivedPacket x := { h with }

theorem Pending.finishPacket : Pending size p.finishPacket [] := ⟨h.length, rfl, take_zero⟩

theorem Pending.receivedPacket : p.finishPacket.receivedPacket = x := h.content

/-- What does not fit into the buffer any more is dropped. -/
theorem Pending.copyData_take : Pending size (p.copyData y) ((x ++ y).take size) := by
  have hx : x.length ≤ size := by
    rw [← h.content, ← h.length p.activeIndex]
    exact length_take_le' ..
  have hlength : ((x ++ y).take size).length = x.length + min y.length (size - x.length) := by
    rw [length_take, length_append]
    omega
  have htake : (x ++ y).take size = x ++ y.take (min y.length (size - x.length)) := by
    rw [take_append, take_of_length_le hx, take_eq_take_iff.mpr]
    omega
  unfold copyData
  dsimp only
  rw [h.content, h.length, h.written, ← htake]
  refine ⟨?_, hlength.symm, ?_⟩
  · intro index
    dsimp only
    by_cases hindex : index = p.activeIndex
    · subst hindex
      rw [Function.update_self, length_append, length_drop, h.length, hlength]
      omega
    · rw [Function.update_of_ne hindex]
      exact h.length index
  · dsimp only
    rw [Function.update_self, ← hlength, take_left]

theorem Pending.copyData (hroom : x.length + y.length ≤ size) : Pending size (p.copyData y) (x ++ y) := by
  have hcopy := h.copyData_take (y := y)
  rwa [take_of_length_le (by rwa [length_append])] at hcopy

end

theorem receivedPacket_copyData {index : Bool} {length : Nat} (hcomplete : p.completePacket = some (index, length))
    (hindex : index ≠ p.activeIndex) : (p.copyData y).receivedPacket = p.receivedPacket := by
  unfold receivedPacket
  rw [show (p.copyData y).completePacket = p.completePacket from rfl, hcomplete]
  unfold copyData
  simp [hindex]

theorem findIdx?_eq_none (hzero : 0 ∉ y) : y.findIdx? (fun b => decide (b = 0)) = none := by
  rw [findIdx?_eq_none_iff]
  intro b hb
  exact decide_eq_false fun h => hzero (h ▸ hb)

theorem parseData_of_notMem (hzero : 0 ∉ y) : p.parseData y = p.copyData y := by
  unfold parseData
  rw [findIdx?_eq_none hzero]

theorem parseData_of_mem {rest : List UInt8} (hy : 0 ∉ y) :
    p.parseData (y ++ 0 :: rest) = (p.copyData y).finishPacket.parseRest rest := by
  have hfirst : (y ++ 0 :: rest).findIdx? (fun b => decide (b = 0)) = some y.length := by
    rw [findIdx?_append, findIdx?_eq_none hy, findIdx?_cons]
    simp
  unfold parseData
  rw [hfirst]
  dsimp only
  rw [take_left, drop_append, drop_of_length_le (Nat.le_succ _), Nat.add_sub_cancel_left,
    nil_append, drop_one, tail_cons]

theorem parseRest_of_notMem (hzero : 0 ∉ y) : p.parseRest y = p.copyData y := by
  unfold parseRest
  rw [findIdx?_eq_none (by simpa using hzero)]

theorem Pending.parseData {rest : List UInt8} (h : Pending size p x) (hy : 0 ∉ y) (hrest : 0 ∉ rest)
    (hroom : x.length + y.length ≤ size) (hroom' : rest.length ≤ size) :
    (p.parseData (y ++ 0 :: rest)).receivedPacket = x ++ y ∧ Pending size (p.parseData (y ++ 0 :: rest)) rest := by
  rw [parseData_of_mem hy, parseRest_of_notMem hrest]
  have hcopy := h.copyData hroom
  refine ⟨?_, hcopy.finishPacket.copyData (by simpa using hroom')⟩
  rw [receivedPacket_copyData rfl (by simp [CobsPacketizer.finishPacket])]
  exact hcopy.receivedPacket

end CobsPacketizer

end RobotCode.Jevois

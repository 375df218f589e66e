import RobotCode.Lib.Ring
import RobotCode.Lib.Transition

/-!
# The byte queue of the USB driver

`Queue` of `motors/usb/queue.h`, between one reader and one writer. A step of either is the load or store of a cursor, or the
copy of one byte. Numbers that never wrap stand behind the cursors: how many bytes were returned and how many accepted.
-/

namespace RobotCode.Usb

open List Transition

/-- Where `Read` is. -/
inductive Reader
  | idle
  | loadWriteCursor (outSize readCursor : Nat)
  | copying (readCursor r : Nat) (outData : List UInt8)

/-- Where `Write` is. -/
inductive Writer
  | idle
  | loadReadCursor (inData : List UInt8) (writeCursor : Nat)
  | copying (inData : List UInt8) (writeCursor r copied : Nat)

structure Queue where
  data : Nat → UInt8
  readCursor : Nat := 0
  writeCursor : Nat := 0
  reader : Reader := .idle
  writer : Writer := .idle
  returned : List UInt8 := []
  accepted : List UInt8 := []

section

variable (w size : Nat)

/-- The sum and the difference of two `size_t` of `w` bits. -/
def add (a b : Nat) : Nat := (a + b) % 2 ^ w

def sub (a b : Nat) : Nat := (a + 2 ^ w - b) % 2 ^ w

def spaceUsed (readCursor writeCursor : Nat) : Nat :=
  let r := sub w writeCursor readCursor
  if size < r then add w size r else r

def wrap (cursor : Nat) : Nat := if size ≤ cursor then sub w cursor size else cursor

/-- Where byte `i` of the `r` bytes at a cursor is, in the first chunk or the second. -/
def slot (cursor r i : Nat) : Nat :=
  let firstChunk := min r (sub w size cursor)
  if i < firstChunk then cursor + i else i - firstChunk

/-- `new char[size]` throws if the size is more than half of the numbers of a `size_t`. -/
def Queue.new (data : Nat → UInt8) : Option Queue := if 2 * size ≤ 2 ^ w then some { data } else none

inductive Label
  | read (outSize : Nat)
  | write (inData : List UInt8)
  | reader
  | writer

namespace Queue

variable (q : Queue)

def readerStep : Option Queue :=
  match q.reader with
  | .idle => none
  | .loadWriteCursor outSize cursor =>
    some { q with reader := .copying cursor (min outSize (spaceUsed w size cursor q.writeCursor)) [] }
  | .copying cursor r outData =>
    if outData.length < r then
      some { q with reader := .copying cursor r (outData ++ [q.data (slot w size cursor r outData.length)]) }
    else
      some { q with
        readCursor := wrap w size (add w cursor r)
        reader := .idle
        returned := q.returned ++ outData }

def writerStep : Option Queue :=
  match q.writer with
  | .idle => none
  | .loadReadCursor inData cursor =>
    let r := min inData.length (sub w (sub w size (spaceUsed w size q.readCursor cursor)) 1)
    some { q with writer := .copying inData cursor r 0 }
  | .copying inData cursor r copied =>
    if copied < r then
      some { q with
        data := Function.update q.data (slot w size cursor r copied) (inData.getD copied 0)
        writer := .copying inData cursor r (copied + 1) }
    else
      some { q with
        writeCursor := wrap w size (add w cursor r)
        writer := .idle
        accepted := q.accepted ++ inData.take r }

def step : Label → Option Queue
  | .read outSize =>
    match q.reader with
    | .idle => some { q with reader := .loadWriteCursor outSize q.readCursor }
    | _ => none
  | .write inData =>
    match q.writer with
    | .idle => some { q with writer := .loadReadCursor inData q.writeCursor }
    | _ => none
  | .reader => q.readerStep w size
  | .writer => q.writerStep w size

end Queue

end

variable {w size a b n i r : Nat}

theorem add_mod_of_lt (hi : i < size) :
    (n + i) % size = if n % size + i < size then n % size + i else n % size + i - size := by
  rw [← Nat.mod_add_mod]
  have := Nat.mod_lt n (show 0 < size by omega)
  split
  · exact Nat.mod_eq_of_lt ‹_›
  · rw [Nat.mod_eq_sub_mod (by omega), Nat.mod_eq_of_lt (by omega)]

theorem sub_of_le (hle : b ≤ a) (ha : a < 2 ^ w) : sub w a b = a - b := by
  rw [sub, Nat.sub_add_comm hle, Nat.add_mod_right, Nat.mod_eq_of_lt (by omega)]

theorem sub_of_lt (hlt : a < b) (hb : b < 2 ^ w) : sub w a b = a + 2 ^ w - b := by
  rw [sub, Nat.mod_eq_of_lt (by omega)]

section

variable (hsize : 0 < size) (hroom : 2 * size ≤ 2 ^ w)
include hsize hroom

theorem slot_eq (hi : i < r) (hr : r ≤ size) : slot w size (n % size) r i = (n + i) % size := by
  have hmod := Nat.mod_lt n hsize
  rw [add_mod_of_lt (by omega), slot, sub_of_le hmod.le (by omega)]
  grind

theorem wrap_eq (hr : r < size) : wrap w size (add w (n % size) r) = (n + r) % size := by
  have hmod := Nat.mod_lt n hsize
  rw [add_mod_of_lt hr, wrap, add, Nat.mod_eq_of_lt (by omega)]
  split
  · rw [sub_of_le (by omega) (by omega), if_neg (by omega)]
  · rw [if_pos (by omega)]

theorem spaceUsed_eq (hle : a ≤ b) (hb : b < a + size) : spaceUsed w size (a % size) (b % size) = b - a := by
  obtain ⟨k, rfl⟩ := Nat.exists_eq_add_of_le hle
  have hmod := Nat.mod_lt a hsize
  rw [add_mod_of_lt (by omega), spaceUsed]
  split
  · rw [sub_of_le (by omega) (by omega), if_neg (by omega)]
    omega
  · rw [sub_of_lt (by omega) (by omega), if_pos (by omega), add, Nat.mod_eq_sub_mod (by omega), Nat.mod_eq_of_lt (by omega)]
    omega

end

/-- What `Read` has copied so far. -/
def Reader.outData : Reader → List UInt8
  | .copying _ _ outData => outData
  | _ => []

namespace Queue

variable (size) in
structure Sound (q : Queue) : Prop where
  readCursor : q.readCursor = q.returned.length % size
  writeCursor : q.writeCursor = q.accepted.length % size
  inOrder : q.returned ++ q.reader.outData <+: q.accepted
  room : q.accepted.length < q.returned.length + size
  unread : ∀ k, q.returned.length ≤ k → k < q.accepted.length → q.accepted[k]? = some (q.data (k % size))
  loaded : ∀ outSize cursor, q.reader = .loadWriteCursor outSize cursor → cursor = q.readCursor
  copies : ∀ cursor r outData, q.reader = .copying cursor r outData →
    cursor = q.readCursor ∧ outData.length ≤ r ∧ q.returned.length + r ≤ q.accepted.length
  loads : ∀ inData cursor, q.writer = .loadReadCursor inData cursor → cursor = q.writeCursor
  copied : ∀ inData cursor r copied, q.writer = .copying inData cursor r copied →
    cursor = q.writeCursor ∧ copied ≤ r ∧ r ≤ inData.length ∧ q.accepted.length + r < q.returned.length + size ∧
      ∀ k < copied, inData[k]? = some (q.data ((q.accepted.length + k) % size))

variable {q q' : Queue} {label : Label} {data : Nat → UInt8}

namespace Sound

theorem length_le (h : q.Sound size) : q.returned.length ≤ q.accepted.length :=
  ((prefix_append ..).trans h.inOrder).length_le

variable (hsize : 0 < size) (hroom : 2 * size ≤ 2 ^ w) (h : q.Sound size)
include hsize hroom h

theorem spaceUsed_eq : spaceUsed w size q.readCursor q.writeCursor = q.accepted.length - q.returned.length := by
  rw [h.readCursor, h.writeCursor]
  exact Usb.spaceUsed_eq hsize hroom h.length_le h.room

theorem readerStep (hstep : q.readerStep w size = some q') : q'.Sound size := by
  have hle := h.length_le
  rw [Queue.readerStep] at hstep
  split at hstep
  · cases hstep
  · next outSize cursor hpc =>
    cases hstep
    rw [h.loaded _ _ hpc, h.spaceUsed_eq hsize hroom]
    exact { h with loaded := by grind, copies := by grind, inOrder := by grind [h.inOrder, Reader.outData] }
  · next cursor r outData hpc =>
    obtain ⟨rfl, hcopied, hr⟩ := h.copies _ _ _ hpc
    have hlt := h.room
    have horder := h.inOrder
    rw [hpc] at horder
    split at hstep
    · next hless =>
      cases hstep
      have hslot : slot w size q.readCursor r outData.length = (q.returned.length + outData.length) % size := by
        rw [h.readCursor, slot_eq hsize hroom hless (by omega)]
      have hnext := h.unread (q.returned.length + outData.length) (by omega) (by omega)
      rw [hslot]
      exact { h with
        inOrder := by
          obtain ⟨rest, hrest⟩ := horder
          rw [← hrest] at hnext ⊢
          cases rest <;> simp_all [Reader.outData, ← hrest]
        loaded := by grind
        copies := by grind }
    · cases hstep
      have hdone : outData.length = r := by omega
      exact { h with
        readCursor := by rw [h.readCursor, wrap_eq hsize hroom (by omega), length_append, hdone]
        inOrder := by simpa [Reader.outData] using horder
        room := by grind
        unread := by grind [h.unread]
        loaded := by grind
        copies := by grind
        copied := by
          intro inData cursor r copied hw
          obtain ⟨hcursor, hle, hin, hfree, hsame⟩ := h.copied _ _ _ _ hw
          grind }

theorem writerStep (hstep : q.writerStep w size = some q') : q'.Sound size := by
  have hle := h.length_le
  have hlt := h.room
  rw [Queue.writerStep] at hstep
  split at hstep
  · cases hstep
  · next inData cursor hpc =>
    cases hstep
    have hfree : sub w size (q.accepted.length - q.returned.length) = size - (q.accepted.length - q.returned.length) :=
      sub_of_le (by omega) (by omega)
    rw [h.loads _ _ hpc, h.spaceUsed_eq hsize hroom, hfree, sub_of_le (by omega) (by omega)]
    exact { h with loads := by grind, copied := by grind }
  · next inData cursor r copied hpc =>
    obtain ⟨rfl, hcopied, hr, hfree, hsame⟩ := h.copied _ _ _ _ hpc
    split at hstep
    · next hless =>
      cases hstep
      have hslot : slot w size q.writeCursor r copied = (q.accepted.length + copied) % size := by
        rw [h.writeCursor, slot_eq hsize hroom hless (by omega)]
      have hkept : ∀ k, q.returned.length ≤ k → k < q.accepted.length + copied →
          Function.update q.data ((q.accepted.length + copied) % size) (inData.getD copied 0) (k % size) =
            q.data (k % size) := by
        intro k hk hk'
        apply Function.update_of_ne
        intro hmod
        have := Ring.eq_of_mod_eq hmod hk'.le (by omega)
        omega
      rw [hslot]
      exact { h with
        unread := by grind [h.unread]
        loads := by grind
        copied := by grind }
    · cases hstep
      have hdone : copied = r := by omega
      exact { h with
        writeCursor := by grind [h.writeCursor, wrap_eq hsize hroom]
        inOrder := h.inOrder.trans (prefix_append ..)
        room := by grind
        unread := by grind [h.unread]
        loads := by grind
        copies := by
          intro cursor r outData hpc
          obtain ⟨hcursor, hle, hr⟩ := h.copies _ _ _ hpc
          grind
        copied := by grind }

theorem step (hstep : q.step w size label = some q') : q'.Sound size := by
  cases label with
  | read outSize =>
    simp only [Queue.step] at hstep
    split at hstep
    · cases hstep
      exact { h with loaded := by grind, copies := by grind, inOrder := by grind [h.inOrder, Reader.outData] }
    · cases hstep
  | write inData =>
    simp only [Queue.step] at hstep
    split at hstep
    · cases hstep
      exact { h with loads := by grind, copied := by grind }
    · cases hstep
  | reader => exact h.readerStep hsize hroom hstep
  | writer => exact h.writerStep hsize hroom hstep

omit hroom h in
theorem initial : Sound size { data } := by
  constructor <;> simp [hsize, Reader.outData]

end Sound

/-- The queue is first in, first out, and `data_queued` counts what was accepted and not yet returned. -/
theorem fifo {q₀ : Queue} (hsize : 0 < size) (hnew : Queue.new w size data = some q₀)
    (hrun : Run (Queue.step w size) (fun _ _ => True) q₀ q) :
    q.returned <+: q.accepted ∧
      (∀ k, q.returned.length ≤ k → k < q.accepted.length → q.accepted[k]? = some (q.data (k % size))) ∧
      q.accepted.length = q.returned.length + spaceUsed w size q.readCursor q.writeCursor ∧
      spaceUsed w size q.readCursor q.writeCursor ≤ size - 1 := by
  simp only [Queue.new, Option.ite_none_right_eq_some, Option.some.injEq] at hnew
  obtain ⟨hroom, rfl⟩ := hnew
  have h : q.Sound size := hrun.invariant (fun _ _ _ hu _ hstep => hu.step hsize hroom hstep) (.initial hsize)
  have hle := h.length_le
  have hlt := h.room
  rw [h.spaceUsed_eq hsize hroom]
  exact ⟨(prefix_append ..).trans h.inOrder, h.unread, by omega, by omega⟩

/-- Two bytes through a queue that holds one, the second written while the first is read. -/
theorem fifo_wraps : ∃ q : Queue, Run (Queue.step 8 2) (fun _ _ => True) { data := fun _ => 0 } q ∧
    q.returned = [1, 2] ∧ q.returned <+: q.accepted := by
  have hexec : ∃ q : Queue, Run (Queue.step 8 2) (fun _ _ => True) { data := fun _ => 0 } q ∧ q.returned = [1, 2] :=
    Run.exists_of_exec [.write [1, 5], .writer, .writer, .writer, .read 9, .reader, .reader, .write [2], .reader, .writer,
      .writer, .writer, .read 9, .reader, .reader, .reader] (by decide +kernel)
  obtain ⟨q, hrun, hq⟩ := hexec
  exact ⟨q, hrun, hq, (fifo (by decide) rfl hrun).1⟩

end Queue

end RobotCode.Usb

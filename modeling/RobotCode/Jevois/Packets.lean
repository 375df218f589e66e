import RobotCode.Jevois.Cobs

/-!
# Which packets come out of the packetizer

A call of `ParseData` can hold the ends of many packets, and keeps one of them: the one that ends last if the data
ends with it, and otherwise the one that ends first. What is kept is always one packet of the stream. But nothing
looks at how long it is, so that an empty packet can be the one that is kept.
-/

namespace RobotCode.Jevois

open List hiding Vector

def lastSegment (stream : List UInt8) : List UInt8 := stream.rtakeWhile (· ≠ 0)

/-- A packet of the stream that ends in the data which comes after it. -/
def EndsIn (stream data segment : List UInt8) : Prop :=
  ∃ before after, stream ++ data = before ++ segment ++ 0 :: after ∧ 0 ∉ segment ∧
    (∀ b ∈ before.getLast?, b = 0) ∧ 0 :: after <:+ data

section

variable {stream data tail segment : List UInt8}

theorem lastSegment_append (stream : List UInt8) (h : 0 ∉ data) : lastSegment (stream ++ data) = lastSegment stream ++ data := by
  unfold lastSegment rtakeWhile
  rw [reverse_append, takeWhile_append_of_pos (by grind), reverse_append, reverse_reverse]

theorem lastSegment_of_notMem (h : 0 ∉ data) : lastSegment data = data := lastSegment_append [] h

theorem lastSegment_eq_nil_iff : lastSegment stream = [] ↔ ∀ b ∈ stream.getLast?, b = 0 := by
  obtain rfl | ⟨stream, b, rfl⟩ := eq_nil_or_concat' stream
  · simp [lastSegment]
  · simp [lastSegment]

theorem lastSegment_append_zero (h : 0 ∉ tail) : lastSegment (stream ++ 0 :: tail) = tail := by
  have hnil : lastSegment (stream ++ [0]) = [] := lastSegment_eq_nil_iff.mpr (by simp)
  rw [append_cons, lastSegment_append _ h, hnil, nil_append]

theorem zero_notMem_lastSegment (stream : List UInt8) : 0 ∉ lastSegment stream := by
  intro h
  simpa using mem_rtakeWhile_imp h

theorem last_zero_cases (stream : List UInt8) : 0 ∉ stream ∨ ∃ before tail, stream = before ++ 0 :: tail ∧ 0 ∉ tail := by
  by_cases h : 0 ∈ stream
  · obtain ⟨tail, before, heq, htail⟩ := eq_append_cons_of_mem (mem_reverse.mpr h)
    refine .inr ⟨before.reverse, tail.reverse, ?_, by simpa using htail⟩
    rw [← reverse_reverse stream, heq]
    simp
  · exact .inl h

theorem lastSegment_append_cons (stream rest : List UInt8) : lastSegment (stream ++ 0 :: rest) = lastSegment rest := by
  obtain hzero | ⟨before, tail, rfl, htail⟩ := last_zero_cases rest
  · rw [lastSegment_append_zero hzero, lastSegment_of_notMem hzero]
  · rw [← cons_append, ← append_assoc, lastSegment_append_zero htail, lastSegment_append_zero htail]

theorem endsIn_first {y rest : List UInt8} (hy : 0 ∉ y) : EndsIn stream (y ++ 0 :: rest) (lastSegment stream ++ y) := by
  obtain hzero | ⟨before, tail, rfl, htail⟩ := last_zero_cases stream
  · rw [lastSegment_of_notMem hzero]
    exact ⟨[], rest, by simp, by simp [hzero, hy], by simp, suffix_append ..⟩
  · rw [lastSegment_append_zero htail]
    exact ⟨before ++ [0], rest, by simp, by simp [htail, hy], by simp, suffix_append ..⟩

theorem endsIn_last {y r : List UInt8} : EndsIn stream (y ++ 0 :: (r ++ [0])) (lastSegment r) := by
  have hsuffix : [0] <:+ y ++ 0 :: (r ++ [0]) := ⟨y ++ 0 :: r, by simp⟩
  obtain hzero | ⟨before, tail, rfl, htail⟩ := last_zero_cases r
  · rw [lastSegment_of_notMem hzero]
    exact ⟨stream ++ y ++ [0], [], by simp, hzero, by simp, hsuffix⟩
  · rw [lastSegment_append_zero htail]
    exact ⟨stream ++ y ++ 0 :: before ++ [0], [], by simp, htail, by simp [getLast?_cons], hsuffix⟩

theorem EndsIn.eq_of_single {y : List UInt8} (h : EndsIn stream (y ++ [0]) segment) (hy : 0 ∉ y) :
    segment = lastSegment stream ++ y := by
  obtain ⟨before, after, heq, hsegment, hbefore, front, hfront⟩ := h
  obtain rfl : after = [] := by
    obtain rfl | ⟨after, b, rfl⟩ := eq_nil_or_concat' after
    · rfl
    · rw [← cons_append, ← append_assoc] at hfront
      have hmem : 0 ∈ y := by
        rw [← (append_inj' hfront rfl).1]
        simp
      exact absurd hmem hy
  rw [← append_assoc, append_left_inj] at heq
  rw [← lastSegment_append _ hy, heq, lastSegment_append _ hsegment, lastSegment_eq_nil_iff.mpr hbefore, nil_append]

end

namespace CobsPacketizer

variable {p : CobsPacketizer} {size : Nat} {stream data y rest tail : List UInt8}

theorem findIdx?_reverse (before : List UInt8) (h : 0 ∉ tail) :
    (before ++ 0 :: tail).reverse.findIdx? (fun b => decide (b = 0)) = some tail.length := by
  rw [reverse_append, reverse_cons, append_assoc, findIdx?_append, findIdx?_eq_none (by simpa using h)]
  simp [findIdx?_cons]

theorem parseRest_of_not_end (h : rest.getLast? ≠ some 0) : p.parseRest rest = p.copyData (lastSegment rest) := by
  obtain hzero | ⟨before, tail, rfl, htail⟩ := last_zero_cases rest
  · rw [parseRest_of_notMem hzero, lastSegment_of_notMem hzero]
  · obtain ⟨n, hn⟩ : ∃ n, tail.length = n + 1 := by
      cases tail with
      | nil => simp at h
      | cons b tail => exact ⟨_, length_cons⟩
    have hdrop : (before ++ 0 :: tail).length - (n + 1) = (before ++ [0]).length := by
      simp only [length_append, length_cons, length_nil]
      omega
    unfold parseRest
    rw [lastSegment_append_zero htail, findIdx?_reverse before htail, hn]
    change p.copyData (((before ++ 0 :: tail).drop ((before ++ 0 :: tail).length - (n + 1))).take (n + 1)) = _
    rw [hdrop, append_cons before 0 tail, drop_left, ← hn, take_length]

theorem parseRest_of_end (r : List UInt8) : p.parseRest (r ++ [0]) = (p.copyData (lastSegment r)).finishPacket := by
  have hindex : r.reverse.findIdx (fun b => decide (b = 0)) = (lastSegment r).length := by
    unfold lastSegment rtakeWhile
    rw [length_reverse, takeWhile_eq_take_findIdx_not, length_take, min_eq_left findIdx_le_length]
    simp
  obtain ⟨before, hr⟩ : ∃ before, before ++ lastSegment r = r := ⟨_, rdropWhile_append_rtakeWhile⟩
  unfold parseRest
  rw [findIdx?_reverse r not_mem_nil, length_nil]
  dsimp only
  rw [dropLast_concat, hindex, Nat.add_sub_cancel_left]
  generalize lastSegment r = tail at *
  subst hr
  rw [length_append, length_singleton, Nat.add_comm 1, Nat.add_sub_add_right, length_append, Nat.add_sub_cancel,
    append_assoc, drop_left, take_left]
  rfl

/-- The state between two calls, when the stream up to here has been given to the packetizer. -/
structure Follows (size : Nat) (stream : List UInt8) (p : CobsPacketizer) : Prop where
  pending : Pending size p ((lastSegment stream).take size)
  complete : ∀ index length, p.completePacket = some (index, length) → index ≠ p.activeIndex

theorem Follows.copyData (h : Follows size stream p) (hdata : 0 ∉ data) :
    Follows size (stream ++ data) (p.copyData data) ∧ (p.copyData data).receivedPacket = p.receivedPacket := by
  refine ⟨⟨?_, h.complete⟩, ?_⟩
  · have hcopy := h.pending.copyData_take (y := data)
    rw [lastSegment_append _ hdata]
    convert hcopy using 1
    rw [take_append, take_append, take_take, min_self, length_take]
    congr 2
    omega
  · cases hcomplete : p.completePacket with
    | none => simp [receivedPacket, CobsPacketizer.copyData, hcomplete]
    | some packet => exact receivedPacket_copyData hcomplete (h.complete _ _ hcomplete)

theorem Follows.finishPacket (h : Follows size stream p) :
    Follows size (stream ++ [0]) p.finishPacket ∧
      p.finishPacket.receivedPacket = (lastSegment stream).take size := by
  refine ⟨⟨?_, ?_⟩, h.pending.receivedPacket⟩
  · rw [lastSegment_append_zero not_mem_nil, take_nil]
    exact h.pending.finishPacket
  · intro index length hcomplete
    cases hcomplete
    exact (Bool.not_ne_self _).symm

theorem Follows.of_lastSegment {stream' : List UInt8} (h : Follows size stream p)
    (heq : lastSegment stream = lastSegment stream') : Follows size stream' p :=
  ⟨heq ▸ h.pending, h.complete⟩

theorem Follows.parseData (h : Follows size stream p) (hy : 0 ∉ y) :
    Follows size (stream ++ (y ++ 0 :: rest)) (p.parseData (y ++ 0 :: rest)) ∧
      (p.parseData (y ++ 0 :: rest)).receivedPacket =
        (if rest.getLast? = some 0 then lastSegment rest.dropLast else lastSegment stream ++ y).take size := by
  rw [parseData_of_mem hy]
  obtain ⟨hfinish, hreceived⟩ := (h.copyData hy).1.finishPacket
  rw [lastSegment_append _ hy] at hreceived
  have hsegment (l : List UInt8) : lastSegment (stream ++ y ++ [0] ++ lastSegment l) = lastSegment l := by
    rw [← append_cons, lastSegment_append_zero (zero_notMem_lastSegment l)]
  have hrest : lastSegment (stream ++ (y ++ 0 :: rest)) = lastSegment rest := by
    rw [← append_assoc, lastSegment_append_cons]
  by_cases hend : rest.getLast? = some 0
  · rw [if_pos hend]
    obtain ⟨r, rfl⟩ := getLast?_eq_some_iff.mp hend
    rw [parseRest_of_end, dropLast_concat]
    obtain ⟨hlast, hpacket⟩ := (hfinish.copyData (zero_notMem_lastSegment r)).1.finishPacket
    rw [hsegment] at hpacket
    refine ⟨hlast.of_lastSegment ?_, hpacket⟩
    rw [hrest, lastSegment_append_zero not_mem_nil, lastSegment_append_zero not_mem_nil]
  · rw [if_neg hend, parseRest_of_not_end hend]
    obtain ⟨hcopy, hkept⟩ := hfinish.copyData (zero_notMem_lastSegment rest)
    exact ⟨hcopy.of_lastSegment ((hsegment rest).trans hrest.symm), hkept.trans hreceived⟩

theorem follows_initial (buffers : Bool → Vector UInt8 size) : Follows size [] (initial buffers) where
  pending :=
    have hnil : (lastSegment []).take size = [] := take_nil
    ⟨fun index => (buffers index).size_toArray, (congrArg length hnil).symm, take_zero.trans hnil.symm⟩
  complete := nofun

theorem Follows.of_pieces (h : Follows size stream p) (pieces : List (List UInt8)) :
    Follows size (stream ++ pieces.flatten) (pieces.foldl CobsPacketizer.parseData p) := by
  induction pieces generalizing stream p with
  | nil => rwa [flatten_nil, append_nil]
  | cons data pieces ih =>
    rw [flatten_cons, ← append_assoc]
    apply ih
    by_cases hzero : 0 ∈ data
    · obtain ⟨y, rest, rfl, hy⟩ := eq_append_cons_of_mem hzero
      exact (h.parseData hy).1
    · rw [parseData_of_notMem hzero]
      exact (h.copyData hzero).1

variable {maxDecodedSize : Nat} (buffers : Bool → Vector UInt8 (cobsMaxEncodedSize maxDecodedSize))
  (pieces : List (List UInt8)) (data : List UInt8)

/-- Whatever the calls before were given, the received packet is a whole one, and what follows the last packet end is kept. -/
theorem parseData_never_blends :
    let size := cobsMaxEncodedSize maxDecodedSize
    let p := pieces.foldl parseData (initial buffers)
    ((p.parseData data).receivedPacket = p.receivedPacket ∨
      ∃ segment, EndsIn pieces.flatten data segment ∧ (p.parseData data).receivedPacket = segment.take size) ∧
    Pending size (p.parseData data) ((lastSegment (pieces.flatten ++ data)).take size) := by
  intro size p
  have hp : Follows size pieces.flatten p := (follows_initial buffers).of_pieces pieces
  refine ⟨?_, ?_⟩
  · by_cases hzero : 0 ∈ data
    · obtain ⟨y, rest, rfl, hy⟩ := eq_append_cons_of_mem hzero
      refine .inr ⟨_, ?_, (hp.parseData hy).2⟩
      split
      · rename_i hend
        obtain ⟨r, rfl⟩ := getLast?_eq_some_iff.mp hend
        rw [dropLast_concat]
        exact endsIn_last
      · exact endsIn_first hy
    · left
      rw [parseData_of_notMem hzero]
      exact (hp.copyData hzero).2
  · have hnext : Follows size (pieces.flatten ++ [data].flatten) ([data].foldl parseData p) :=
      hp.of_pieces [data]
    rw [flatten_singleton] at hnext
    exact hnext.pending

/-- The packet that is kept is empty if the data ends with two packet ends, or starts with the end of an empty packet and does
not end with one. -/
theorem parseData_nonempty_iff :
    ((∃ segment, EndsIn pieces.flatten data segment ∧ segment ≠ []) →
      ((pieces.foldl parseData (initial buffers)).parseData data).receivedPacket ≠ []) ↔
    (∀ segment, EndsIn pieces.flatten data segment → segment = []) ∨
      0 < maxDecodedSize ∧ ¬ [0, 0] <:+ data ∧
        (data.getLast? = some 0 ∨ data.head? ≠ some 0 ∨ lastSegment pieces.flatten ≠ []) := by
  set stream := pieces.flatten
  have hp : Follows _ stream _ := (follows_initial buffers).of_pieces pieces
  by_cases hempty : ∀ segment, EndsIn stream data segment → segment = []
  · refine iff_of_true ?_ (.inl hempty)
    rintro ⟨segment, hsegment, hne⟩
    exact absurd (hempty segment hsegment) hne
  · simp only [hempty, false_or]
    push Not at hempty
    rw [imp_iff_right hempty]
    obtain ⟨segment, hends, hsegment⟩ := hempty
    have hzero : 0 ∈ data := by
      obtain ⟨before, after, -, -, -, hsuffix⟩ := hends
      exact hsuffix.subset mem_cons_self
    obtain ⟨y, rest, rfl, hy⟩ := eq_append_cons_of_mem hzero
    rw [(hp.parseData hy).2, ne_eq, take_eq_nil_iff, not_or]
    have hsize : cobsMaxEncodedSize maxDecodedSize ≠ 0 ↔ 0 < maxDecodedSize := by
      unfold cobsMaxEncodedSize
      omega
    rw [← ne_eq, hsize]
    refine and_congr_right fun _ => ?_
    obtain rfl | ⟨rest, b, rfl⟩ := eq_nil_or_concat' rest
    · -- one packet ends here, and it is the one that is not empty
      rw [hends.eq_of_single hy] at hsegment
      have hone : ¬ [0, 0] <:+ y ++ [0] := by
        rintro ⟨front, hfront⟩
        rw [append_cons] at hfront
        rw [← (append_inj' hfront rfl).1] at hy
        simp at hy
      simpa [hone] using hsegment
    · obtain hnil | ⟨front, c, hfront⟩ := eq_nil_or_concat' (y ++ 0 :: rest)
      · simp at hnil
      have hsegment : lastSegment rest = [] ↔ c = 0 := by
        rw [← lastSegment_append_cons y, hfront, lastSegment_eq_nil_iff]
        simp
      have hhead : (y ++ 0 :: rest ++ [b]).head? = some 0 ↔ y = [] := by
        cases y with
        | nil => simp
        | cons d y => simpa using Ne.symm (ne_of_not_mem_cons hy)
      have hpair : [0, 0] <:+ y ++ 0 :: rest ++ [b] ↔ c = 0 ∧ b = 0 := by
        rw [hfront, append_assoc]
        constructor
        · rintro ⟨start, hstart⟩
          simpa [eq_comm] using (append_inj' hstart rfl).2
        · rintro ⟨rfl, rfl⟩
          exact suffix_append ..
      rw [← cons_append, ← append_assoc, hpair, ne_eq, hhead, getLast?_concat, getLast?_concat, dropLast_concat]
      by_cases hb : b = 0
      · simp [hb, hsegment]
      · simp [hb]
        tauto

theorem parseData_hides_packet :
    EndsIn [] [1, 0, 0] [1] ∧
      ((initial fun _ => Vector.replicate (cobsMaxEncodedSize 3) 0).parseData [1, 0, 0]).receivedPacket = [] := by
  refine ⟨⟨[], [0], rfl, by decide, by simp, [1], rfl⟩, by decide +kernel⟩

end CobsPacketizer

end RobotCode.Jevois

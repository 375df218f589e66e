import RobotCode.Jevois.Packets
import RobotCode.Lib.LittleEndian

/-!
# The link from a camera to the Teensy

A frame is packed into a fixed number of bytes, checked by a CRC, encoded, and sent with a zero after it. The other
side feeds what arrives to a packetizer, in pieces of any size, and unpacks each packet.

A float is the number its bits are. The CRC is some function of the bytes.
-/

namespace RobotCode.Jevois

open List hiding Vector

/-- `aos::SizedArray`: a variable number of values with a maximum. -/
@[ext]
structure SizedArray (α : Type) (N : Nat) where
  values : List α
  size_le : values.length ≤ N
  deriving DecidableEq, Repr

structure Target where
  distance : UInt32
  height : UInt32
  heading : UInt32
  skew : UInt32
  deriving DecidableEq, Repr

structure CameraFrame where
  targets : SizedArray Target 3
  age : UInt8
  deriving DecidableEq, Repr

def uartToTeensySize : Nat := 1 + 3 * (4 * 4) + 1 + 2

/-- `memcpy` of a float. -/
def floatBytes (x : UInt32) : List UInt8 := LittleEndian.split 4 x.toNat

def floatOfBytes (bytes : List UInt8) : UInt32 := UInt32.ofNat (LittleEndian.combine bytes)

def Target.bytes (t : Target) : List UInt8 :=
  floatBytes t.distance ++ (floatBytes t.height ++ (floatBytes t.heading ++ floatBytes t.skew))

def Target.ofBytes (bytes : List UInt8) : Target where
  distance := floatOfBytes (bytes.take 4)
  height := floatOfBytes ((bytes.drop 4).take 4)
  heading := floatOfBytes ((bytes.drop 8).take 4)
  skew := floatOfBytes ((bytes.drop 12).take 4)

def slotOf (buffer : List UInt8) (i : Nat) : List UInt8 := (buffer.drop (1 + 16 * i)).take 16

/-- The slot for target `i` before the CRC is computed. One without a target is not initialized. -/
def packSlot (uninitialized : Vector UInt8 uartToTeensySize) (message : CameraFrame) (i : Nat) : List UInt8 :=
  match message.targets.values[i]? with
  | some target => target.bytes
  | none => slotOf uninitialized.toList i

/-- Everything before the CRC. -/
def packBody (uninitialized : Vector UInt8 uartToTeensySize) (message : CameraFrame) : List UInt8 :=
  UInt8.ofNat message.targets.values.length ::
    (range 3).flatMap (packSlot uninitialized message) ++ [message.age]

section

variable (crc : List UInt8 → UInt16)

def uartPackToTeensy (uninitialized : Vector UInt8 uartToTeensySize) (message : CameraFrame) :
    Except Trap (List UInt8) :=
  let body := packBody uninitialized message
  cobsEncode uartToTeensySize (body ++ LittleEndian.split 2 (crc body).toNat)

/-- The targets of the first slots. A `char` has no sign on the processors this runs on. -/
def unpackTargets (buffer : List UInt8) : SizedArray Target 3 where
  values := ((range 3).filter (· < (buffer.headD 0).toNat)).map fun i => Target.ofBytes (slotOf buffer i)
  size_le := by
    rw [length_map]
    exact length_filter_le _ _

def uartUnpackToTeensy (uninitialized : Vector UInt8 uartToTeensySize) (encodedBuffer : List UInt8) :
    Except Trap (Option CameraFrame) := do
  let buffer ← cobsDecode uartToTeensySize uninitialized.toList encodedBuffer
  if buffer.length ≠ uartToTeensySize then .ok none
  else
    let message : CameraFrame := ⟨unpackTargets buffer, (buffer.drop 49).headD 0⟩
    if (crc (buffer.take 50)).toNat ≠ LittleEndian.combine (buffer.drop 50) then .ok none
    else .ok (some message)

/-- Send frames, each with what was in the buffer before it, and a zero after each of them. -/
def transmit : List (Vector UInt8 uartToTeensySize × CameraFrame) → Except Trap (List UInt8)
  | [] => .ok []
  | (uninitialized, message) :: rest => do
      let packet ← uartPackToTeensy crc uninitialized message
      let bytes ← transmit rest
      .ok (packet ++ 0 :: bytes)

/-- Feed pieces of what arrives to the packetizer, and unpack the packet there is after a piece. -/
def receive (uninitialized : Vector UInt8 uartToTeensySize) :
    CobsPacketizer → List (List UInt8) → Except Trap (List (Option CameraFrame))
  | _, [] => .ok []
  | p, newData :: rest =>
    let p := p.parseData newData
    if p.receivedPacket = [] then receive uninitialized p rest
    else do
      let message ← uartUnpackToTeensy crc uninitialized p.receivedPacket
      let messages ← receive uninitialized p.clearReceivedPacket rest
      .ok (message :: messages)

end

theorem length_floatBytes (x : UInt32) : (floatBytes x).length = 4 := LittleEndian.length_split 4 _

theorem floatOfBytes_floatBytes (x : UInt32) : floatOfBytes (floatBytes x) = x := by
  unfold floatOfBytes floatBytes
  rw [LittleEndian.combine_split, Nat.mod_eq_of_lt (x.toNat_lt.trans_eq (by norm_num))]
  exact UInt32.ofNat_toNat

theorem Target.length_bytes (t : Target) : t.bytes.length = 16 := by
  simp [bytes, length_floatBytes]

theorem Target.ofBytes_bytes (t : Target) : ofBytes t.bytes = t := by
  have htake (x : UInt32) (rest : List UInt8) : (floatBytes x ++ rest).take 4 = floatBytes x :=
    take_left' (length_floatBytes x)
  have hdrop (x : UInt32) (rest : List UInt8) : (floatBytes x ++ rest).drop 4 = rest :=
    drop_left' (length_floatBytes x)
  have hlast (x : UInt32) : (floatBytes x).take 4 = floatBytes x := take_of_length_le (length_floatBytes x).le
  have h8 (l : List UInt8) : l.drop 8 = (l.drop 4).drop 4 := by rw [drop_drop]
  have h12 (l : List UInt8) : l.drop 12 = ((l.drop 4).drop 4).drop 4 := by rw [drop_drop, drop_drop]
  simp only [ofBytes, bytes, h8, h12, hdrop, htake, hlast, floatOfBytes_floatBytes]

section

variable (uninitialized : Vector UInt8 uartToTeensySize) (message : CameraFrame)

theorem length_packSlot {i : Nat} (hi : i < 3) : (packSlot uninitialized message i).length = 16 := by
  unfold packSlot
  split
  · exact Target.length_bytes _
  · rw [slotOf, length_take, length_drop, Vector.length_toList, uartToTeensySize]
    omega

theorem packBody_append (rest : List UInt8) : packBody uninitialized message ++ rest =
      UInt8.ofNat message.targets.values.length ::
        (packSlot uninitialized message 0 ++ (packSlot uninitialized message 1 ++
          (packSlot uninitialized message 2 ++ message.age :: rest))) := by
  simp [packBody, range_succ]

theorem length_packBody : (packBody uninitialized message).length = 50 := by
  have h := congrArg length (packBody_append uninitialized message [])
  simpa [length_packSlot uninitialized message] using h

theorem slotOf_packBody {i : Nat} (hi : i < 3) (rest : List UInt8) :
    slotOf (packBody uninitialized message ++ rest) i = packSlot uninitialized message i := by
  have h0 := length_packSlot uninitialized message (show 0 < 3 by decide)
  have h1 := length_packSlot uninitialized message (show 1 < 3 by decide)
  have h2 := length_packSlot uninitialized message (show 2 < 3 by decide)
  rw [packBody_append, slotOf, Nat.add_comm, drop_succ_cons]
  match i, hi with
  | 0, _ => exact take_left' h0
  | 1, _ => rw [Nat.mul_one, drop_left' h0, take_left' h1]
  | 2, _ =>
    rw [show 16 * 2 = 16 + 16 from rfl, ← drop_drop, drop_left' h0, drop_left' h1, take_left' h2]

theorem filter_lt_range {n : Nat} (hn : n ≤ 3) : (range 3).filter (· < n) = range n := by
  interval_cases n <;> decide

theorem unpackTargets_packBody (rest : List UInt8) :
    unpackTargets (packBody uninitialized message ++ rest) = message.targets := by
  have hsize := message.targets.size_le
  have hcount : ((packBody uninitialized message ++ rest).headD 0).toNat = message.targets.values.length := by
    rw [packBody_append, headD_cons, UInt8.toNat_ofNat', Nat.mod_eq_of_lt (by omega)]
  ext1
  unfold unpackTargets
  dsimp only
  rw [hcount, filter_lt_range hsize]
  apply ext_getElem
  · rw [length_map, length_range]
  · intro i hi hi'
    have hvalue : message.targets.values[i]? = some message.targets.values[i] := getElem?_eq_getElem hi'
    rw [getElem_map, getElem_range, slotOf_packBody uninitialized message (by omega), packSlot, hvalue]
    exact Target.ofBytes_bytes _

end

section

variable (crc : List UInt8 → UInt16) (uninitialized : Vector UInt8 uartToTeensySize) (message : CameraFrame)

/-- The bytes that are encoded. -/
def packed : List UInt8 :=
  packBody uninitialized message ++ LittleEndian.split 2 (crc (packBody uninitialized message)).toNat

theorem length_packed : (packed crc uninitialized message).length = uartToTeensySize := by
  rw [packed, length_append, length_packBody, LittleEndian.length_split]
  rfl

theorem length_stuff_packed :
    (stuff [] (packed crc uninitialized message)).length = cobsMaxEncodedSize uartToTeensySize := by
  rw [length_stuff (by rw [length_packed]; decide), length_packed]
  rfl

theorem uartPackToTeensy_eq :
    uartPackToTeensy crc uninitialized message = .ok (stuff [] (packed crc uninitialized message)) :=
  cobsEncode_eq (length_packed crc uninitialized message).le (length_stuff_packed crc uninitialized message).le

theorem uartUnpackToTeensy_packed (uninitialized' : Vector UInt8 uartToTeensySize) :
    uartUnpackToTeensy crc uninitialized' (stuff [] (packed crc uninitialized message)) = .ok (some message) := by
  have hlength := length_packed crc uninitialized message
  have hbody := length_packBody uninitialized message
  have hdecode := cobsDecode_stuff uninitialized'.toList hlength.le (length_stuff_packed crc uninitialized message).le
  have hage : ((packed crc uninitialized message).drop 49).headD 0 = message.age := by
    rw [packBody, length_append, length_singleton] at hbody
    rw [packed, packBody, append_assoc, drop_left' (Nat.succ.inj hbody)]
    rfl
  have htake : (packed crc uninitialized message).take 50 = packBody uninitialized message := take_left' hbody
  have hcrc : LittleEndian.combine ((packed crc uninitialized message).drop 50) =
      (crc (packBody uninitialized message)).toNat := by
    rw [packed, drop_left' hbody, LittleEndian.combine_split]
    exact Nat.mod_eq_of_lt (crc (packBody uninitialized message)).toNat_lt
  unfold uartUnpackToTeensy
  rw [hdecode]
  refine Fallible.bind_eq_ok.mpr ⟨_, rfl, ?_⟩
  rw [if_neg (not_not.mpr hlength), htake, hcrc, hage, if_neg (not_not.mpr rfl), packed, unpackTargets_packBody]

end

def delimited (packets : List (List UInt8)) : List UInt8 := packets.flatMap (· ++ [0])

theorem delimited_cons (packet : List UInt8) (packets : List (List UInt8)) :
    delimited (packet :: packets) = packet ++ 0 :: delimited packets := by
  simp [delimited]

theorem length_le_of_delimited {packets : List (List UInt8)} {size : Nat} {x y : List UInt8}
    (hpackets : ∀ packet ∈ packets, packet.length ≤ size) (hx : 0 ∉ x) (h : x ++ y = delimited packets) :
    x.length ≤ size := by
  cases packets with
  | nil =>
    obtain ⟨rfl, -⟩ := append_eq_nil_iff.mp h
    exact Nat.zero_le _
  | cons packet packets =>
    rw [delimited_cons] at h
    obtain ⟨t, hpacket, -⟩ | ⟨t, rfl, ht⟩ := append_eq_append_iff.mp h
    · have hlength := hpackets packet mem_cons_self
      rw [hpacket, length_append] at hlength
      omega
    · cases t with
      | nil =>
        rw [append_nil]
        exact hpackets packet mem_cons_self
      | cons b t =>
        obtain ⟨rfl, -⟩ := cons.inj ht
        exact absurd (mem_append_right _ mem_cons_self) hx

theorem delimited_eq_cons {packets : List (List UInt8)} {x y : List UInt8}
    (hpackets : ∀ packet ∈ packets, 0 ∉ packet) (hx : 0 ∉ x) (h : x ++ 0 :: y = delimited packets) :
    ∃ packets', packets = x :: packets' ∧ y = delimited packets' := by
  cases packets with
  | nil => cases x <;> cases h
  | cons packet packets =>
    rw [delimited_cons] at h
    have hpacket := hpackets packet mem_cons_self
    obtain ⟨t, rfl, ht⟩ | ⟨t, rfl, ht⟩ := append_eq_append_iff.mp h
    · cases t with
      | nil =>
        rw [append_nil]
        exact ⟨packets, rfl, (cons.inj ht).2⟩
      | cons b t =>
        obtain ⟨rfl, -⟩ := cons.inj ht
        exact absurd (mem_append_right _ mem_cons_self) hpacket
    · cases t with
      | nil =>
        rw [append_nil]
        exact ⟨packets, rfl, (cons.inj ht).2.symm⟩
      | cons b t =>
        obtain ⟨rfl, -⟩ := cons.inj ht
        exact absurd (mem_append_right _ mem_cons_self) hx

theorem split_of_count_le {data : List UInt8} (h : data.count 0 ≤ 1) (hmem : 0 ∈ data) :
    ∃ x y, data = x ++ 0 :: y ∧ 0 ∉ x ∧ 0 ∉ y := by
  obtain ⟨x, y, rfl, hx⟩ := eq_append_cons_of_mem hmem
  rw [count_append, count_cons_self, count_eq_zero.mpr hx] at h
  exact ⟨x, y, rfl, hx, count_eq_zero.mp (by omega)⟩

section

variable {crc : List UInt8 → UInt16} {uninitialized : Vector UInt8 uartToTeensySize}

def packet (crc : List UInt8 → UInt16) (sent : Vector UInt8 uartToTeensySize × CameraFrame) : List UInt8 :=
  stuff [] (packed crc sent.1 sent.2)

theorem transmit_eq (sent : List (Vector UInt8 uartToTeensySize × CameraFrame)) :
    transmit crc sent = .ok (delimited (sent.map (packet crc))) := by
  induction sent with
  | nil => rfl
  | cons first sent ih =>
    obtain ⟨uninitialized, message⟩ := first
    rw [transmit, uartPackToTeensy_eq, ih, map_cons, delimited_cons]
    rfl

/-- The frames come out in order. The induction is on the pieces, with the bytes of the packet that has not ended yet. -/
theorem receive_spec {p : CobsPacketizer} {x : List UInt8} {pieces : List (List UInt8)}
    {sent : List (Vector UInt8 uartToTeensySize × CameraFrame)}
    (hp : p.Pending (cobsMaxEncodedSize uartToTeensySize) x) (hcomplete : p.completePacket = none) (hx : 0 ∉ x)
    (hstream : x ++ pieces.flatten = delimited (sent.map (packet crc)))
    (hpieces : ∀ piece ∈ pieces, piece.count 0 ≤ 1) :
    receive crc uninitialized p pieces = .ok (sent.map fun s => some s.2) := by
  have hlength : ∀ sent : List (Vector UInt8 uartToTeensySize × CameraFrame), ∀ bytes ∈ sent.map (packet crc),
      bytes.length ≤ cobsMaxEncodedSize uartToTeensySize := by
    intro sent
    exact forall_mem_map.mpr fun s _ => (length_stuff_packed crc s.1 s.2).le
  induction pieces generalizing p x sent with
  | nil =>
    cases sent with
    | nil => rfl
    | cons first sent =>
      rw [map_cons, delimited_cons, flatten_nil, append_nil] at hstream
      refine absurd ?_ hx
      rw [hstream]
      exact mem_append_right _ mem_cons_self
  | cons piece pieces ih =>
    have hrest : ∀ piece ∈ pieces, piece.count 0 ≤ 1 := fun piece h => hpieces piece (mem_cons_of_mem _ h)
    rw [flatten_cons] at hstream
    rw [receive]
    by_cases hzero : 0 ∈ piece
    · obtain ⟨y, z, rfl, hy, hz⟩ := split_of_count_le (hpieces piece mem_cons_self) hzero
      have hxy : 0 ∉ x ++ y := fun h => (mem_append.mp h).elim hx hy
      have hsplit : x ++ y ++ 0 :: (z ++ pieces.flatten) = delimited (sent.map (packet crc)) := by
        rw [← hstream]
        simp
      obtain ⟨packets, hpackets, hstream'⟩ :=
        delimited_eq_cons (forall_mem_map.mpr fun s _ =>
          show 0 ∉ packet crc s from zero_notMem_stuff (by decide) not_mem_nil) hxy hsplit
      obtain ⟨first, sent, rfl, hfirst, rfl⟩ := map_eq_cons_iff.mp hpackets
      have hroom : (packet crc first).length = _ := length_stuff_packed crc first.1 first.2
      rw [hfirst, length_append] at hroom
      have hroom' := length_le_of_delimited (hlength sent) hz hstream'
      obtain ⟨hreceived, hpending⟩ := hp.parseData hy hz hroom.le hroom'
      have hne : x ++ y ≠ [] := by
        intro hnil
        rw [← length_eq_zero_iff, length_append, hroom] at hnil
        exact absurd hnil (by decide)
      rw [if_neg (by rw [hreceived]; exact hne), hreceived, ← hfirst, packet, uartUnpackToTeensy_packed,
        ih hpending.clear rfl hz hstream' hrest]
      rfl
    · have hxy : 0 ∉ x ++ piece := fun h => (mem_append.mp h).elim hx hzero
      rw [← append_assoc] at hstream
      have hroom := length_le_of_delimited (hlength sent) hxy hstream
      rw [length_append] at hroom
      have hnone : (p.copyData piece).completePacket = none := hcomplete
      rw [CobsPacketizer.parseData_of_notMem hzero, if_pos (by rw [CobsPacketizer.receivedPacket, hnone])]
      exact ih (hp.copyData hroom) hnone hxy hstream hrest

end

/-- However the stream is cut into pieces with at most one packet end in each, the frames that were sent are received, in
order, and no packet is rejected. -/
theorem uart_link (crc : List UInt8 → UInt16) (sent : List (Vector UInt8 uartToTeensySize × CameraFrame))
    (buffers : Bool → Vector UInt8 (cobsMaxEncodedSize uartToTeensySize))
    (uninitialized : Vector UInt8 uartToTeensySize) :
    ∃ bytes, transmit crc sent = .ok bytes ∧
      ∀ pieces : List (List UInt8), pieces.flatten = bytes → (∀ piece ∈ pieces, piece.count 0 ≤ 1) →
        receive crc uninitialized (.initial buffers) pieces = .ok (sent.map fun s => some s.2) := by
  refine ⟨_, transmit_eq sent, ?_⟩
  intro pieces hbytes hpieces
  exact receive_spec ⟨fun _ => Vector.length_toList, rfl, take_zero⟩ rfl not_mem_nil hbytes hpieces

/-- A frame without targets, cut in the middle. -/
theorem uart_link_cut :
    receive (fun _ => 0x0102) (Vector.replicate _ 7) (.initial fun _ => Vector.replicate 53 0)
        [[1, 52] ++ replicate 20 1, replicate 28 1 ++ [5, 2, 1, 0]] =
      .ok [some ⟨⟨[], by decide⟩, 5⟩] := by
  obtain ⟨bytes, htransmit, hreceive⟩ := uart_link (fun _ => 0x0102)
    [(Vector.replicate _ 1, ⟨⟨[], by decide⟩, 5⟩)] (fun _ => Vector.replicate _ 0) (Vector.replicate _ 7)
  have hbytes : transmit (fun _ => 0x0102) [(Vector.replicate _ 1, ⟨⟨[], by decide⟩, 5⟩)] =
      .ok ([1, 52] ++ replicate 48 1 ++ [5, 2, 1, 0]) := by decide +kernel
  obtain rfl := Except.ok.inj (htransmit.symm.trans hbytes)
  exact hreceive _ (by decide +kernel) (by decide +kernel)

/-- Whatever the packetizer was called with before, the frames that are sent after a packet end are received. -/
theorem uart_link_recovers (crc : List UInt8 → UInt16) (before : List (Option (List UInt8))) (data : List UInt8)
    (sent : List (Vector UInt8 uartToTeensySize × CameraFrame))
    (buffers : Bool → Vector UInt8 (cobsMaxEncodedSize uartToTeensySize))
    (uninitialized : Vector UInt8 uartToTeensySize) :
    let p : CobsPacketizer := before.foldl (fun p call => call.elim p.clearReceivedPacket p.parseData) (.initial buffers)
    ∃ bytes, transmit crc sent = .ok bytes ∧
      ∀ pieces : List (List UInt8), pieces.flatten = bytes → (∀ piece ∈ pieces, piece.count 0 ≤ 1) →
        receive crc uninitialized (p.parseData (data ++ [0])).clearReceivedPacket pieces =
          .ok (sent.map fun s => some s.2) := by
  intro p
  obtain ⟨stream, h⟩ : ∃ stream, p.Follows (cobsMaxEncodedSize uartToTeensySize) stream := by
    refine foldlRecOn before _ (motive := (∃ stream, CobsPacketizer.Follows _ stream ·))
      ⟨[], CobsPacketizer.follows_initial buffers⟩ ?_
    rintro p ⟨stream, h⟩ (_ | data) -
    · exact ⟨stream, h.pending.clear, nofun⟩
    · exact ⟨_, h.of_pieces [data]⟩
  have hpending := (h.of_pieces [data ++ [0]]).pending
  rw [flatten_singleton, ← append_assoc, lastSegment_append_zero not_mem_nil, take_nil] at hpending
  exact ⟨_, transmit_eq sent, fun _ => receive_spec hpending.clear rfl not_mem_nil⟩

end RobotCode.Jevois

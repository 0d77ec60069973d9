import Infinity.Wal.WalCmdCodec

/-! The entries of the log.

An entry is a header with its size, a checksum, the transaction and its timestamp, then the
commands, then the size once more for reading backwards. The header is patched after the
commands are written: the checksum is that of the entry with a zero in its place. -/
namespace Infinity.Wal.Codec

open Lib List

structure WalEntry (N : Nested) where
  size : BitVec 32
  checksum : BitVec 32
  txnId : BitVec 64
  commitTs : BitVec 64
  cmds : List (WalCmd N)

namespace WalEntry

variable {N : Nested} (crc : Bytes → BitVec 32) (pm : Bool)

/-- `operator==` -/
def equal (a b : WalEntry N) : Bool :=
  a.txnId == b.txnId && a.commitTs == b.commitTs && WalSegmentInfo.equalInfos WalCmd.equal a.cmds b.cmds

/-- The number of bytes that `WriteAdv` writes. -/
def sizeInBytes (e : WalEntry N) : Nat := 24 + 4 + (e.cmds.map (WalCmd.getSizeInBytes pm)).sum + 4

/-- `GetSizeInBytes`, a signed number of 32 bits. -/
def getSizeInBytes (e : WalEntry N) : Int := (BitVec.ofNat 32 (e.sizeInBytes pm)).toInt

def measured (e : WalEntry N) : WalEntry N := {e with cmds := e.cmds.map (WalCmd.measured pm)}

/-- The entry between its two first fields and its last. -/
def writeBody (e : WalEntry N) (cmds : List Bytes) : Bytes :=
  List.flatten [writeBits 8 e.txnId, writeBits 8 e.commitTs, writeLE 4 e.cmds.length, cmds.flatten]

/-- An entry of a size, with a checksum. -/
def frame (checksum : BitVec 32) (body : Bytes) : Bytes :=
  List.flatten [writeLE 4 (8 + body.length + 4), writeBits 4 checksum, body, writeLE 4 (8 + body.length + 4)]

def writeAdv (e : WalEntry N) : Except CodecFault Bytes := do
  let cmds ← e.cmds.mapM (WalCmd.writeAdv pm)
  return frame (crc (frame 0 (e.writeBody cmds))) (e.writeBody cmds)

/-- Four bytes at a place, if it is in the buffer. -/
def readAt (bytes : Bytes) (i : Int) : Option (BitVec 32) :=
  if i < 0 ∨ bytes.length < i + 4 then none
  else
    match readBits 4 (bytes.drop i.toNat) with
    | none => none
    | some (x, _) => some x

/-- The loop over the commands. It fails where the engine would, and gives no commands where the
entry ends too early. -/
def readCmds (k : Int) : Nat → Bytes → Option (Option (List (WalCmd N)) × Bytes)
  | 0, bytes => some (some [], bytes)
  | n + 1, bytes =>
    if (bytes.length : Int) ≤ k then some (none, bytes)
    else
      match (withEnd k (WalCmd.readAdv pm k) : Decode (WalCmd N)).run bytes with
      | none => none
      | some (cmd, rest) =>
        match readCmds k n rest with
        | none => none
        | some (none, rest) => some (none, rest)
        | some (some cmds, rest) => some (some (cmd :: cmds), rest)

def readHeader : Decode (BitVec 32 × BitVec 32 × BitVec 64 × BitVec 64) := do
  let size ← readBits 4
  let checksum ← readBits 4
  let txnId ← readBits 8
  let commitTs ← readBits 8
  return (size, checksum, txnId, commitTs)

/-- The first `size` bytes with a zero for the checksum. -/
def zeroChecksum (bytes : Bytes) (size : Nat) : Bytes := (bytes.take 4 ++ writeBits 4 0 ++ bytes.drop 8).take size

/-- `WalEntry::ReadAdv`. It fails where a byte outside the buffer would be read or the engine
stops; a `nullptr` is no entry. -/
def readAdv (maxBytes : Int) (bytes : Bytes) : Option (Option (WalEntry N) × Bytes) :=
  if maxBytes ≤ 0 then some (none, bytes)
  else
    let k : Int := bytes.length - maxBytes
    match readHeader.run bytes with
    | none => none
    | some ((size, checksum, txnId, commitTs), payload) =>
      match readAt bytes (size.toInt - 4) with
      | none => none
      | some size2 =>
        if size ≠ size2 then some (none, bytes)
        else if checksum ≠ crc (zeroChecksum bytes size.toInt.toNat) then some (none, bytes)
        else
          match (readBits 4).run payload with
          | none => none
          | some (cnt, rest) =>
            match readCmds pm k cnt.toInt.toNat rest with
            | none => none
            | some (none, rest) => some (none, rest)
            | some (some cmds, rest) =>
              if ((rest.drop 4).length : Int) < k then some (none, rest)
              else some (some ⟨size, checksum, txnId, commitTs, cmds⟩, rest.drop 4)

/-! ### The round trip -/

variable {crc} {pm}

theorem length_frame (checksum : BitVec 32) (body : Bytes) : (frame checksum body).length = 8 + body.length + 4 := by
  simp only [frame, length_flatten, map_cons, map_nil, sum_cons, sum_nil, length_writeLE, writeBits]
  omega

theorem readCmds_holds (k : Int) {cmds : List (WalCmd N)} (h : (cmds.map (WalCmd.getSizeInBytes pm)).sum < 2 ^ 31)
    (hvalid : ∀ c ∈ cmds, c.AddressesValid pm) :
    ∃ parts, (cmds.map (WalCmd.measured pm)).mapM (WalCmd.writeAdv pm) = .ok parts ∧
      parts.flatten.length = (cmds.map (WalCmd.getSizeInBytes pm)).sum ∧
      ∀ rest : Bytes, k ≤ rest.length →
        readCmds pm k cmds.length (parts.flatten ++ rest) = some (some (cmds.map (WalCmd.replayed pm)), rest) := by
  induction cmds with
  | nil => exact ⟨[], rfl, rfl, fun rest _ => rfl⟩
  | cons c cmds ih =>
    rw [map_cons, sum_cons] at h
    obtain ⟨parts, hok, hlen, hread⟩ := ih (by omega) fun c hc => hvalid c (mem_cons_of_mem _ hc)
    have hc (maxBytes : Int) (hmax : c.getSizeInBytes pm ≤ maxBytes) :=
      c.writes (k := k) (hvalid c mem_cons_self) hmax
    obtain ⟨bytes, hbytes, hcsize, -⟩ := hc _ (le_refl _)
    refine ⟨bytes :: parts, ?_, ?_, fun rest hk => ?_⟩
    · rw [map_cons, mapM_cons, hbytes, hok]
      rfl
    · rw [flatten_cons, length_append, map_cons, sum_cons, hcsize, hlen]
    · have hholds : Holds k (withEnd k (WalCmd.readAdv pm k)) bytes (c.getSizeInBytes pm) (c.replayed pm) := by
        refine .withEnd fun maxBytes hmax => ?_
        obtain ⟨bytes', hbytes', h'⟩ := hc maxBytes hmax
        obtain rfl : bytes = bytes' := Except.ok.inj (hbytes.symm.trans hbytes')
        exact h'
      have hpos := c.size_pos pm
      have hmore : ¬ (((bytes :: parts).flatten ++ rest).length : Int) ≤ k := by
        rw [flatten_cons, length_append, length_append]
        omega
      have hk' : k ≤ (parts.flatten ++ rest).length := by
        rw [length_append]
        omega
      rw [length_cons, readCmds, if_neg hmore, flatten_cons, append_assoc, hholds.reads (by omega) _ hk']
      show (match readCmds pm k cmds.length (parts.flatten ++ rest) with
        | none => none
        | some (none, rest) => some (none, rest)
        | some (some cmds, rest) => some (some (c.replayed pm :: cmds), rest)) = _
      rw [hread rest hk]
      rfl

theorem frame_append (checksum : BitVec 32) (body rest : Bytes) :
    frame checksum body ++ rest = writeLE 4 (8 + body.length + 4) ++
      (writeBits 4 checksum ++ (body ++ (writeLE 4 (8 + body.length + 4) ++ rest))) := by
  simp [frame]

theorem zeroChecksum_frame (checksum : BitVec 32) (body rest : Bytes) :
    zeroChecksum (frame checksum body ++ rest) (8 + body.length + 4) = frame 0 body := by
  have hsize := length_writeLE 4 (8 + body.length + 4)
  have hchecksum : (writeBits 4 checksum).length = 4 := length_writeLE 4 _
  have htake : (frame checksum body ++ rest).take 4 = writeLE 4 (8 + body.length + 4) := by
    rw [frame_append, take_left' hsize]
  have hdrop : (frame checksum body ++ rest).drop 8 = body ++ (writeLE 4 (8 + body.length + 4) ++ rest) := by
    rw [frame_append, ← append_assoc, drop_left' (by rw [length_append, hsize, hchecksum])]
  have hzero : writeLE 4 (8 + body.length + 4) ++ writeBits 4 0 ++
      (body ++ (writeLE 4 (8 + body.length + 4) ++ rest)) = frame 0 body ++ rest := by
    rw [frame_append, append_assoc]
  rw [zeroChecksum, htake, hdrop, hzero, take_left' (length_frame 0 body)]

theorem readAt_append (before after : Bytes) (n : Nat) :
    readAt (before ++ (writeLE 4 n ++ after)) before.length = some (BitVec.ofNat 32 n) := by
  have hin : ¬ ((before.length : Int) < 0 ∨
      ((before ++ (writeLE 4 n ++ after)).length : Int) < (before.length : Int) + 4) := by
    rw [length_append, length_append, length_writeLE]
    push_cast
    omega
  have hread := (holds_count 0 n).reads (by decide) after (Int.natCast_nonneg _)
  rw [readAt, if_neg hin, Int.toNat_natCast, drop_left]
  show (match (readBits 4).run (writeLE 4 n ++ after) with
    | none => none
    | some (x, _) => some x) = _
  rw [hread]

theorem readAt_frame (checksum : BitVec 32) (body rest : Bytes) :
    readAt (frame checksum body ++ rest) ((8 + body.length + 4 : Nat) - 4) =
      some (BitVec.ofNat 32 (8 + body.length + 4)) := by
  let before := writeLE 4 (8 + body.length + 4) ++ (writeBits 4 checksum ++ body)
  have hplace : ((8 + body.length + 4 : Nat) - 4 : Int) = (before.length : Nat) := by
    simp only [before, length_append, length_writeLE, writeBits]
    push_cast
    omega
  have hbytes : frame checksum body ++ rest = before ++ (writeLE 4 (8 + body.length + 4) ++ rest) := by
    simp only [before, frame_append, append_assoc]
  rw [hplace, hbytes]
  exact readAt_append before rest _

theorem holds_header (k : Int) (n : Nat) (checksum : BitVec 32) (txnId commitTs : BitVec 64) : Holds k readHeader
      (flatten [writeLE 4 n, writeBits 4 checksum, writeBits 8 txnId, writeBits 8 commitTs]) 24
      (BitVec.ofNat 32 n, checksum, txnId, commitTs) :=
  ((holds_count k n).bind <| (holds_bits k 4 checksum).bind <| (holds_bits k 8 txnId).bind <|
    (holds_bits k 8 commitTs).bind <| .pure k (BitVec.ofNat 32 n, checksum, txnId, commitTs)).of_size (by omega)

theorem toInt_size {n : Nat} (h : n < 2 ^ 31) : (BitVec.ofNat 32 n).toInt = n := by
  have hmod : n % 2 ^ 32 = n := Nat.mod_eq_of_lt (by omega)
  rw [BitVec.toInt_eq_toNat_cond, BitVec.toNat_ofNat, hmod, if_pos (by omega)]

/-- The entry as it is read back. -/
def replayed (e : WalEntry N) (pm : Bool) (size checksum : BitVec 32) : WalEntry N :=
  ⟨size, checksum, e.txnId, e.commitTs, e.cmds.map (WalCmd.replayed pm)⟩

theorem equal_replayed (e : WalEntry N) (size checksum : BitVec 32) : (e.replayed pm size checksum).equal e = true := by
  have hcmds : WalSegmentInfo.equalInfos WalCmd.equal (e.cmds.map (WalCmd.replayed pm)) e.cmds = true :=
    WalSegmentInfo.equalInfos_map fun c _ => c.equal_replayed
  simp [equal, replayed, hcmds]

/-- The entry is written to `bytes`, which have the size that was computed for it, and an equal one is
read back from them whatever follows. -/
structure Encodes (crc : Bytes → BitVec 32) (pm : Bool) (e : WalEntry N) (bytes : Bytes) (e' : WalEntry N) : Prop where
  writes : (e.measured pm).writeAdv crc pm = .ok bytes
  size : bytes.length = e.sizeInBytes pm
  first : ∃ tail, bytes = writeLE 4 bytes.length ++ tail
  last : ∃ head, bytes = head ++ writeLE 4 bytes.length
  reads : ∀ (maxBytes : Int) (rest : Bytes), bytes.length ≤ maxBytes →
    readAdv crc pm maxBytes (bytes ++ rest) = some (some e', rest)
  equal : e'.equal e = true

theorem Encodes.length_pos {e e' : WalEntry N} {bytes : Bytes} (h : Encodes crc pm e bytes e') : 0 < bytes.length := by
  rw [h.size, sizeInBytes]
  omega

theorem readAdv_frame {e : WalEntry N} {parts : List Bytes} {checksum : BitVec 32} {maxBytes : Int} {rest : Bytes}
    (hbody : 8 + ((e.measured pm).writeBody parts).length + 4 = e.sizeInBytes pm)
    (hsize : 24 + 4 + (e.cmds.map (WalCmd.getSizeInBytes pm)).sum + 4 < 2 ^ 31) (hcount : e.cmds.length < 2 ^ 31)
    (hvalid : ∀ c ∈ e.cmds, c.AddressesValid pm)
    (hok : (e.cmds.map (WalCmd.measured pm)).mapM (WalCmd.writeAdv pm) = .ok parts)
    (hchecksum : checksum = crc (frame 0 ((e.measured pm).writeBody parts)))
    (hmax : (frame checksum ((e.measured pm).writeBody parts)).length ≤ maxBytes) :
    readAdv crc pm maxBytes (frame checksum ((e.measured pm).writeBody parts) ++ rest) =
      some (some (e.replayed pm (BitVec.ofNat 32 (e.sizeInBytes pm)) checksum), rest) := by
  have hn : e.sizeInBytes pm < 2 ^ 31 := hsize
  rw [length_frame] at hmax
  generalize hk : ((frame checksum ((e.measured pm).writeBody parts) ++ rest).length : Int) - maxBytes = k
  have hkrest : k ≤ rest.length := by
    rw [← hk, length_append, length_frame]
    push_cast
    omega
  obtain ⟨parts', hok', -, hcmds⟩ := readCmds_holds k (by omega) hvalid
  obtain rfl : parts = parts' := Except.ok.inj (hok.symm.trans hok')
  let afterCmds := writeLE 4 (e.sizeInBytes pm) ++ rest
  let payload := writeLE 4 e.cmds.length ++ (parts.flatten ++ afterCmds)
  have hafter : k ≤ afterCmds.length := by
    simp only [afterCmds, length_append]
    omega
  have hpayload : k ≤ payload.length := by
    simp only [payload, length_append]
    omega
  have hbytes : frame checksum ((e.measured pm).writeBody parts) ++ rest =
      flatten [writeLE 4 (e.sizeInBytes pm), writeBits 4 checksum, writeBits 8 e.txnId, writeBits 8 e.commitTs] ++
        payload := by
    rw [frame_append, hbody]
    simp [writeBody, measured, payload, afterCmds]
  have hheader := (holds_header k (e.sizeInBytes pm) checksum e.txnId e.commitTs).reads (by decide) payload hpayload
  rw [← hbytes] at hheader
  have hpad : readAt (frame checksum ((e.measured pm).writeBody parts) ++ rest)
      ((BitVec.ofNat 32 (e.sizeInBytes pm)).toInt - 4) = some (BitVec.ofNat 32 (e.sizeInBytes pm)) := by
    have h := readAt_frame checksum ((e.measured pm).writeBody parts) rest
    rwa [hbody, ← toInt_size hn] at h
  have hzero : zeroChecksum (frame checksum ((e.measured pm).writeBody parts) ++ rest)
      (BitVec.ofNat 32 (e.sizeInBytes pm)).toInt.toNat = frame 0 ((e.measured pm).writeBody parts) := by
    rw [toInt_size hn, Int.toNat_natCast, ← hbody, zeroChecksum_frame]
  have hcnt := (holds_count k e.cmds.length).reads (by decide) (parts.flatten ++ afterCmds) (by
    rw [length_append]
    omega)
  have hloop : readCmds pm k (BitVec.ofNat (8 * 4) e.cmds.length).toInt.toNat (parts.flatten ++ afterCmds) =
      some (some (e.cmds.map (WalCmd.replayed pm)), afterCmds) := by
    rw [toNat_toInt_ofNat hcount, hcmds afterCmds hafter]
  have hdrop : afterCmds.drop 4 = rest := drop_left' (length_writeLE 4 _)
  have hpos : ¬ maxBytes ≤ 0 := by omega
  rw [readAdv, if_neg hpos]
  simp only [hheader, hpad, hzero, ← hchecksum, ne_eq, not_true_eq_false, if_false, payload, hcnt, hk, hloop, hdrop]
  exact if_neg (not_lt.mpr hkrest)

theorem encodes (e : WalEntry N) (h : e.sizeInBytes pm < 2 ^ 31) (hvalid : ∀ c ∈ e.cmds, c.AddressesValid pm) :
    ∃ bytes checksum, Encodes crc pm e bytes (e.replayed pm (BitVec.ofNat 32 (e.sizeInBytes pm)) checksum) := by
  have hsize := h
  rw [sizeInBytes] at hsize
  have hcount := length_le_sum_map fun c (_ : c ∈ e.cmds) => WalCmd.size_pos pm c
  obtain ⟨parts, hok, hlen, -⟩ := readCmds_holds 0 (by omega) hvalid
  let body := (e.measured pm).writeBody parts
  have hbody : 8 + body.length + 4 = e.sizeInBytes pm := by
    simp only [body, writeBody, length_flatten, map_cons, map_nil, sum_cons, sum_nil,
      length_writeLE, writeBits, sizeInBytes]
    rw [← length_flatten]
    omega
  let checksum := crc (frame 0 body)
  have hframe : (frame checksum body).length = 8 + body.length + 4 := length_frame checksum body
  refine ⟨frame checksum body, checksum, ?_, hframe.trans hbody, ?_, ?_, fun maxBytes rest hmax => ?_,
    e.equal_replayed _ _⟩
  · show (e.cmds.map (WalCmd.measured pm)).mapM (WalCmd.writeAdv pm) >>= _ = _
    rw [hok]
    rfl
  · rw [hframe]
    exact ⟨_, by simpa using frame_append checksum body []⟩
  · rw [hframe]
    exact ⟨writeLE 4 (8 + body.length + 4) ++ (writeBits 4 checksum ++ body), by
      simpa using frame_append checksum body []⟩
  · exact readAdv_frame hbody hsize (by omega) hvalid hok rfl hmax

theorem getSizeInBytes_eq {e : WalEntry N} (h : e.sizeInBytes pm < 2 ^ 31) : e.getSizeInBytes pm = e.sizeInBytes pm :=
  toInt_size h

end WalEntry

/-- **The round trip of log entries.** An entry below two gigabytes whose object addresses are set is
written to as many bytes as `GetSizeInBytes` says, and is read back from them, whatever
follows, as an equal entry. What is read agrees with the entry in every field that the log keeps. -/
theorem wal_entry_round_trip (N : Nested) (crc : Bytes → BitVec 32) (pm : Bool) (e : WalEntry N)
    (h : e.sizeInBytes pm < 2 ^ 31) (hvalid : ∀ c ∈ e.cmds, c.AddressesValid pm) :
    ∃ bytes e', (e.measured pm).writeAdv crc pm = .ok bytes ∧ (bytes.length : Int) = e.getSizeInBytes pm ∧
      (∀ (maxBytes : Int) (rest : Bytes), e.getSizeInBytes pm ≤ maxBytes →
        WalEntry.readAdv crc pm maxBytes (bytes ++ rest) = some (some e', rest)) ∧
      e'.equal e = true ∧ e'.txnId = e.txnId ∧ e'.commitTs = e.commitTs ∧
      e'.cmds = e.cmds.map (WalCmd.replayed pm) := by
  obtain ⟨bytes, checksum, hencodes⟩ : ∃ bytes checksum, WalEntry.Encodes crc pm e bytes _ := e.encodes h hvalid
  have hsize : (bytes.length : Int) = e.getSizeInBytes pm := by rw [hencodes.size, WalEntry.getSizeInBytes_eq h]
  refine ⟨bytes, e.replayed pm (BitVec.ofNat 32 (e.sizeInBytes pm)) checksum, hencodes.writes, hsize,
    fun maxBytes rest hmax => ?_, hencodes.equal, rfl, rfl, rfl⟩
  exact hencodes.reads maxBytes rest (hsize ▸ hmax)

/-- A nested value of one byte. -/
def byteCodec : NestedCodec (BitVec 8) where
  getSizeInBytes _ := 1
  writeAdv := writeBits 1
  readAdv _ := readBits 1
  equal a b := a == b
  size_pos _ := Nat.one_pos
  equal_self _ := BEq.rfl
  holds a _ _ := holds_bits 0 1 a

def byteNested : Nested := ⟨_, _, _, _, byteCodec, byteCodec, byteCodec, byteCodec⟩

/-- The block of a new segment, with the object of its version file. -/
def blockIn (objKey : Bytes) : WalBlockInfo where
  blockId := 0
  rowCount := 0
  rowCapacity := 0
  outlineInfos := []
  paths := []
  addrSerializer := [⟨[118], ⟨objKey, 0, 0⟩, ⟨0, 0, 0, .empty⟩⟩]
  pmSize := 0

/-- Transaction 1 drops a database and imports a segment of one block. -/
def importEntry : WalEntry byteNested :=
  ⟨0, 0, 1, 2, [.dropDatabase [97], .importData [100] [116] ⟨0, 0, 0, 0, 0, [blockIn [107]]⟩]⟩

theorem importEntry_valid : ∀ c ∈ importEntry.cmds, c.AddressesValid true := by
  simp [importEntry, WalCmd.AddressesValid, WalSegmentInfo.AddressesValid, WalBlockInfo.AddressesValid, blockIn,
    AddrSerializer.Valid, ObjAddr.valid]

theorem wal_entry_round_trip_import :
    ∃ bytes e', (importEntry.measured true).writeAdv (fun _ => 0) true = .ok bytes ∧
      (bytes.length : Int) = importEntry.getSizeInBytes true ∧
      (∀ (maxBytes : Int) (rest : Bytes), importEntry.getSizeInBytes true ≤ maxBytes →
        WalEntry.readAdv (fun _ => 0) true maxBytes (bytes ++ rest) = some (some e', rest)) ∧
      e'.equal importEntry = true ∧ e'.txnId = importEntry.txnId ∧ e'.commitTs = importEntry.commitTs ∧
      e'.cmds = importEntry.cmds.map (WalCmd.replayed true) :=
  wal_entry_round_trip byteNested (fun _ => 0) true importEntry (by decide) importEntry_valid

/-- Two entries that are not written as they should be: one with a string just below two gigabytes,
whose size is negative as a number of 32 bits, and one with an address that is not set. -/
theorem wal_entry_not_written :
    (∃ (name bytes : Bytes), name.length < 2 ^ 31 ∧
      WalEntry.writeAdv (fun _ => 0) false (⟨0, 0, 1, 2, [.dropDatabase name]⟩ : WalEntry byteNested) = .ok bytes ∧
      (bytes.length : Int) ≠
        WalEntry.getSizeInBytes false (⟨0, 0, 1, 2, [.dropDatabase name]⟩ : WalEntry byteNested)) ∧
    WalEntry.writeAdv (fun _ => 0) true (WalEntry.measured true
      (⟨0, 0, 1, 2, [.importData [] [] ⟨0, 0, 0, 0, 0, [blockIn []]⟩]⟩ : WalEntry byteNested)) =
      .error (.invalidAddress [118]) := by
  refine ⟨?_, by decide +kernel⟩
  obtain ⟨name, hname⟩ : ∃ name : Bytes, name.length = 2 ^ 31 - 1 := ⟨replicate _ 0, length_replicate⟩
  refine ⟨name, _, by omega, rfl, ?_⟩
  have hsize : WalEntry.sizeInBytes false (⟨0, 0, 1, 2, [.dropDatabase name]⟩ : WalEntry byteNested) = 2 ^ 31 + 36 := by
    simp [WalEntry.sizeInBytes, WalCmd.getSizeInBytes, hname]
  have hnegative : WalEntry.getSizeInBytes false (⟨0, 0, 1, 2, [.dropDatabase name]⟩ : WalEntry byteNested) < 0 := by
    rw [WalEntry.getSizeInBytes, hsize]
    decide
  omega

end Infinity.Wal.Codec

import Infinity.Wal.WalEntryCodec

/-! Reading a log file entry by entry, forwards and backwards.

The iterator finds the next entry by its size: the first field of the entry when it goes
forwards, the last when it goes backwards. A file that was being written at a crash ends in
a part of an entry. Forwards, the iterator gives every whole entry and stops at that part. It
takes the size of the part before it looks how many bytes are left, so a part that
is shorter than the size field sends it past the end of the buffer. -/
namespace Infinity.Wal.Codec

open Lib List

/-- A buffer is in memory, so its places are numbers of 64 bits. -/
structure WalEntryIterator where
  isBackward : Bool
  off : Nat
  buf : Bytes
  inMemory : buf.length < 2 ^ 64

namespace WalEntryIterator

variable {N : Nested} (crc : Bytes → BitVec 32) (pm : Bool)

def make (buf : Bytes) (h : buf.length < 2 ^ 64) (isBackward : Bool) : WalEntryIterator :=
  ⟨isBackward, if isBackward then buf.length else 0, buf, h⟩

def hasNext (it : WalEntryIterator) : Bool :=
  (it.isBackward && decide (0 < it.off)) || (!it.isBackward && decide (it.off < it.buf.length))

/-- `(SizeT)entry_size` -/
def sizeT (entrySize : BitVec 32) : Nat := (entrySize.signExtend 64).toNat

/-- The end of `Next`: the place moves only over an entry that was read. -/
def deliver (it : WalEntryIterator) (off : Nat) :
    Option (Option (WalEntry N) × Bytes) → Option (Option (WalEntry N) × WalEntryIterator)
  | none => none
  | some (none, _) => some (none, it)
  | some (some e, _) => some (some e, {it with off := off})

/-- `WalEntryIterator::Next`. It fails where a byte outside the buffer would be read or the engine
stops, and gives no entry for a `nullptr`. -/
def next (it : WalEntryIterator) : Option (Option (WalEntry N) × WalEntryIterator) :=
  if it.isBackward then
    match WalEntry.readAt it.buf (it.off - 4) with
    | none => none
    | some entrySize =>
      if sizeT entrySize > it.off then some (none, it)
      else
        it.deliver (it.off - sizeT entrySize)
          (WalEntry.readAdv crc pm entrySize.toInt (it.buf.drop (it.off - sizeT entrySize)))
  else
    match WalEntry.readAt it.buf it.off with
    | none => none
    | some entrySize =>
      if (it.off + sizeT entrySize) % 2 ^ 64 > it.buf.length then some (none, it)
      else
        it.deliver ((it.off + sizeT entrySize) % 2 ^ 64)
          (WalEntry.readAdv crc pm entrySize.toInt (it.buf.drop it.off))

/-- What a loop over the iterator has seen: the entries, whether a bad one ended it, and the
offset then. -/
structure Iterated (N : Nested) where
  entries : List (WalEntry N)
  bad : Bool
  offset : Nat

/-- The loop, with a bound on its rounds: it ends where there is no next entry or a bad one. -/
def iterate : Nat → WalEntryIterator → Option (Iterated N)
  | 0, _ => none
  | fuel + 1, it =>
    if !it.hasNext then some ⟨[], false, it.off⟩
    else
      match (it.next crc pm : Option (Option (WalEntry N) × WalEntryIterator)) with
      | none => none
      | some (none, it) => some ⟨[], true, it.off⟩
      | some (some e, it) =>
        match iterate fuel it with
        | none => none
        | some seen => some {seen with entries := e :: seen.entries}

variable {crc} {pm}

/-! ### One step -/

theorem sizeT_ofNat {n : Nat} (h : n < 2 ^ 31) : sizeT (BitVec.ofNat 32 n) = n := by
  have hint := WalEntry.toInt_size h
  have hext : ((BitVec.ofNat 32 n).signExtend 64).toInt = n := by rw [BitVec.toInt_signExtend_of_le (by decide), hint]
  rw [sizeT]
  rw [BitVec.toInt_eq_toNat_cond] at hext
  split at hext <;> omega

variable {e e' : WalEntry N} {bytes : Bytes}

theorem next_forward (done rest : Bytes) {h : (done ++ (bytes ++ rest)).length < 2 ^ 64}
    (henc : WalEntry.Encodes crc pm e bytes e') (hsize : bytes.length < 2 ^ 31) :
    next crc pm ⟨false, done.length, done ++ (bytes ++ rest), h⟩ =
      some (some e', ⟨false, (done ++ bytes).length, done ++ (bytes ++ rest), h⟩) := by
  obtain ⟨tail, htail⟩ := henc.first
  have hread : WalEntry.readAt (done ++ (bytes ++ rest)) done.length = some (BitVec.ofNat 32 bytes.length) := by
    have hbuf : done ++ (bytes ++ rest) = done ++ (writeLE 4 bytes.length ++ (tail ++ rest)) := by
      conv_lhs => rw [htail]
      rw [append_assoc]
    rw [hbuf]
    exact WalEntry.readAt_append done (tail ++ rest) _
  have hoff : (done.length + bytes.length) % 2 ^ 64 = (done ++ bytes).length := by
    rw [length_append]
    simp only [length_append] at h
    exact Nat.mod_eq_of_lt (by omega)
  have hin : ¬ (done ++ bytes).length > (done ++ (bytes ++ rest)).length := by
    simp only [length_append]
    omega
  have hentry := henc.reads bytes.length rest (le_refl _)
  simp only [next, Bool.false_eq_true, if_false, hread, sizeT_ofNat hsize, hoff, hin, drop_left,
    WalEntry.toInt_size hsize, hentry, deliver]

theorem next_torn {done cut : Bytes} {h : (done ++ cut).length < 2 ^ 64} (henc : WalEntry.Encodes crc pm e bytes e')
    (hsize : bytes.length < 2 ^ 31) (hmem : done.length + bytes.length < 2 ^ 64) {m : Nat} (hcut : cut = bytes.take m)
    (hm : 4 ≤ m) (hlt : m < bytes.length) :
    (next crc pm ⟨false, done.length, done ++ cut, h⟩ : Option (Option (WalEntry N) × WalEntryIterator)) =
      some (none, ⟨false, done.length, done ++ cut, h⟩) := by
  obtain ⟨tail, htail⟩ := henc.first
  have hfirst : cut = writeLE 4 bytes.length ++ tail.take (m - 4) := by
    rw [hcut]
    conv_lhs => rw [htail]
    rw [take_append, length_writeLE, take_of_length_le (by rw [length_writeLE]; exact hm)]
  have hread : WalEntry.readAt (done ++ cut) done.length = some (BitVec.ofNat 32 bytes.length) := by
    rw [hfirst]
    exact WalEntry.readAt_append done (tail.take (m - 4)) _
  have hoff : (done.length + bytes.length) % 2 ^ 64 > (done ++ cut).length := by
    rw [length_append, hcut, length_take]
    omega
  simp only [next, Bool.false_eq_true, if_false, hread, sizeT_ofNat hsize, hoff, if_true]

/-- The size of an entry of which fewer than four bytes are left is read outside the buffer. -/
theorem next_short {done cut : Bytes} {h : (done ++ cut).length < 2 ^ 64} (hcut : cut.length < 4) :
    (next crc pm ⟨false, done.length, done ++ cut, h⟩ : Option (Option (WalEntry N) × WalEntryIterator)) = none := by
  have hout : ((done ++ cut).length : Int) < (done.length : Int) + 4 := by
    rw [length_append]
    omega
  simp only [next, Bool.false_eq_true, if_false, WalEntry.readAt, hout, or_true, if_true]

theorem next_backward (before after : Bytes) {h : (before ++ (bytes ++ after)).length < 2 ^ 64}
    (henc : WalEntry.Encodes crc pm e bytes e') (hsize : bytes.length < 2 ^ 31) :
    next crc pm ⟨true, (before ++ bytes).length, before ++ (bytes ++ after), h⟩ =
      some (some e', ⟨true, before.length, before ++ (bytes ++ after), h⟩) := by
  obtain ⟨head, hhead⟩ := henc.last
  have hlen : bytes.length = head.length + 4 := by
    conv_lhs => rw [hhead]
    rw [length_append, length_writeLE]
  have hread : WalEntry.readAt (before ++ (bytes ++ after)) ((before ++ bytes).length - 4 : Int) =
      some (BitVec.ofNat 32 bytes.length) := by
    have hplace : ((before ++ bytes).length - 4 : Int) = ((before ++ head).length : Nat) := by
      simp only [length_append]
      omega
    have hbuf : before ++ (bytes ++ after) = (before ++ head) ++ (writeLE 4 bytes.length ++ after) := by
      conv_lhs => rw [hhead]
      simp
    rw [hplace, hbuf]
    exact WalEntry.readAt_append (before ++ head) after _
  have hoff : (before ++ bytes).length - bytes.length = before.length := by
    rw [length_append]
    omega
  have hin : ¬ bytes.length > (before ++ bytes).length := by
    rw [length_append]
    omega
  have hentry := henc.reads bytes.length after (le_refl _)
  simp only [next, if_true, hread, sizeT_ofNat hsize, hin, if_false, hoff, drop_left,
    WalEntry.toInt_size hsize, hentry, deliver]

/-! ### Whole runs -/

/-- The number of encodings that the first `m` bytes hold entirely. -/
def wholeCount : List Bytes → Nat → Nat
  | [], _ => 0
  | bytes :: encs, m => if bytes.length ≤ m then wholeCount encs (m - bytes.length) + 1 else 0

/-- The end of the last of them. -/
def wholeLength (encs : List Bytes) (m : Nat) : Nat := (encs.take (wholeCount encs m)).flatten.length

/-- A log: entries, what is written for each and what is read back. -/
inductive Log (crc : Bytes → BitVec 32) (pm : Bool) : List (WalEntry N) → List Bytes → List (WalEntry N) → Prop where
  | nil : Log crc pm [] [] []
  | cons {e e' : WalEntry N} {bytes : Bytes} {entries replays : List (WalEntry N)} {encs : List Bytes}
    (encodes : WalEntry.Encodes crc pm e bytes e') (size : bytes.length < 2 ^ 31)
    (rest : Log crc pm entries encs replays) : Log crc pm (e :: entries) (bytes :: encs) (e' :: replays)

variable {entries replays : List (WalEntry N)} {encs : List Bytes}

theorem iterate_end {fuel : Nat} {it : WalEntryIterator} (hfuel : 0 < fuel) (h : it.hasNext = false) :
    iterate crc pm fuel it = some (⟨[], false, it.off⟩ : Iterated N) := by
  cases fuel with
  | zero => cases hfuel
  | succ fuel => simp [iterate, h]

theorem iterate_entry (fuel : Nat) {it it' : WalEntryIterator} (h : it.hasNext = true)
    (hnext : it.next crc pm = some (some e', it')) :
    iterate crc pm (fuel + 1) it =
      (iterate crc pm fuel it').map fun seen => {seen with entries := e' :: seen.entries} := by
  cases hrest : (iterate crc pm fuel it' : Option (Iterated N)) <;> simp [iterate, h, hnext, hrest]

theorem iterate_stop {fuel : Nat} {it : WalEntryIterator} (hfuel : 0 < fuel) (h : it.hasNext = true)
    (bad : Option WalEntryIterator)
    (hnext : (it.next crc pm : Option (Option (WalEntry N) × WalEntryIterator)) = bad.map (none, ·)) :
    iterate crc pm fuel it = bad.map fun it' => (⟨[], true, it'.off⟩ : Iterated N) := by
  cases fuel with
  | zero => cases hfuel
  | succ fuel => cases bad <;> simp [iterate, h, hnext]

theorem iterate_forward (hlog : Log crc pm entries encs replays) (done : Bytes) {m : Nat}
    (hm : m ≤ encs.flatten.length) (hmem : (done ++ encs.flatten).length < 2 ^ 64)
    (h : (done ++ encs.flatten.take m).length < 2 ^ 64) {fuel : Nat} (hfuel : entries.length < fuel) :
    iterate crc pm fuel ⟨false, done.length, done ++ encs.flatten.take m, h⟩ =
      if m = wholeLength encs m ∨ wholeLength encs m + 4 ≤ m then
        some (⟨replays.take (wholeCount encs m), decide (wholeLength encs m < m), done.length + wholeLength encs m⟩ :
          Iterated N)
      else none := by
  induction hlog generalizing done m fuel with
  | nil =>
    obtain rfl : m = 0 := Nat.le_zero.mp hm
    exact iterate_end (by omega) (by simp [hasNext])
  | @cons e e' bytes entries replays encs henc hsize hrest ih =>
    have hpos := henc.length_pos
    by_cases hwhole : bytes.length ≤ m
    · have hcount : wholeCount (bytes :: encs) m = wholeCount encs (m - bytes.length) + 1 := if_pos hwhole
      have hlength : wholeLength (bytes :: encs) m = bytes.length + wholeLength encs (m - bytes.length) := by
        rw [wholeLength, hcount, take_succ_cons, flatten_cons, length_append]
        rfl
      have htake : (bytes :: encs).flatten.take m = bytes ++ encs.flatten.take (m - bytes.length) := by
        rw [flatten_cons, take_append, take_of_length_le hwhole]
      rw [flatten_cons, length_append] at hm
      obtain ⟨fuel, rfl⟩ : ∃ n, fuel = n + 1 := ⟨fuel - 1, by omega⟩
      have hbuf : done ++ (bytes :: encs).flatten.take m = done ++ bytes ++ encs.flatten.take (m - bytes.length) := by
        rw [htake, append_assoc]
      have hmem' : (done ++ bytes ++ encs.flatten).length < 2 ^ 64 := by simpa [append_assoc] using hmem
      have hseen := ih (done ++ bytes) (by omega) hmem' (hbuf ▸ h) (Nat.lt_of_succ_lt_succ hfuel)
      have hnext := next_forward done (encs.flatten.take (m - bytes.length)) (h := by rwa [← htake]) henc hsize
      simp only [append_assoc] at hseen
      simp only [htake]
      rw [iterate_entry fuel (by simp [hasNext]; omega) hnext, hseen, hcount, hlength, take_succ_cons]
      generalize wholeLength encs (m - bytes.length) = whole
      split
      · rw [if_pos (by omega)]
        simp only [length_append, Option.map_some, Option.some.injEq, Iterated.mk.injEq, true_and]
        exact ⟨decide_eq_decide.mpr (by omega), by omega⟩
      · rw [if_neg (by omega)]
        rfl
    · have hcount : wholeCount (bytes :: encs) m = 0 := if_neg hwhole
      have hlength : wholeLength (bytes :: encs) m = 0 := by
        rw [wholeLength, hcount]
        rfl
      have htake : (bytes :: encs).flatten.take m = bytes.take m := by
        rw [flatten_cons, take_append_of_le_length (by omega)]
      rw [hcount, hlength]
      simp only [htake]
      -- nothing of the entry is there, less than its size, or at least its size
      rcases Nat.eq_zero_or_pos m with rfl | hmpos
      · exact iterate_end (by omega) (by simp [hasNext])
      have hnew : (⟨false, done.length, done ++ bytes.take m, htake ▸ h⟩ : WalEntryIterator).hasNext = true := by
        simp [hasNext]
        omega
      rcases lt_or_ge m 4 with hshort | hlong
      · rw [if_neg (by omega)]
        exact iterate_stop (by omega) hnew none (next_short (by rw [length_take]; omega))
      have hmem' : done.length + bytes.length < 2 ^ 64 := by
        simp only [flatten_cons, length_append] at hmem
        omega
      rw [if_pos (by omega), decide_eq_true hmpos]
      exact iterate_stop (by omega) hnew (some _) (next_torn henc hsize hmem' rfl hlong (by omega))

/-- Backwards over a log that is followed by bytes which were read already. -/
theorem iterate_backward (hlog : Log crc pm entries encs replays) (before after : Bytes)
    (h : (before ++ (encs.flatten ++ after)).length < 2 ^ 64) {seen : Iterated N} {fuel : Nat}
    (hbefore : iterate crc pm fuel ⟨true, before.length, before ++ (encs.flatten ++ after), h⟩ = some seen) :
    iterate crc pm (fuel + entries.length)
        ⟨true, (before ++ encs.flatten).length, before ++ (encs.flatten ++ after), h⟩ =
      some {seen with entries := replays.reverse ++ seen.entries} := by
  induction hlog generalizing before seen fuel with
  | nil =>
    simp only [flatten_nil, append_nil] at hbefore ⊢
    exact hbefore
  | @cons e e' bytes entries replays encs henc hsize hrest ih =>
    have hbuf : before ++ ((bytes :: encs).flatten ++ after) = before ++ bytes ++ (encs.flatten ++ after) := by simp
    have hoff : before ++ (bytes :: encs).flatten = before ++ bytes ++ encs.flatten := by simp
    have hpos := henc.length_pos
    have hlast : iterate crc pm (fuel + 1)
        ⟨true, (before ++ bytes).length, before ++ (bytes ++ (encs.flatten ++ after)), by
          rw [hbuf, append_assoc] at h; exact h⟩ = some {seen with entries := e' :: seen.entries} := by
      simp only [hbuf, append_assoc] at hbefore
      rw [iterate_entry fuel (by simp [hasNext]; omega) (next_backward before (encs.flatten ++ after) henc hsize), hbefore]
      rfl
    simp only [← append_assoc before] at hlast
    have hall := ih (before ++ bytes) (hbuf ▸ h) hlast
    simp only [hbuf, hoff]
    rw [length_cons, ← add_assoc, Nat.add_right_comm, hall, reverse_cons, append_assoc]
    rfl

theorem log_of_entries {entries : List (WalEntry N)}
    (h : ∀ e ∈ entries, e.sizeInBytes pm < 2 ^ 31 ∧ ∀ c ∈ e.cmds, c.AddressesValid pm) :
    ∃ encs replays, Log crc pm entries encs replays ∧
      (entries.map (WalEntry.measured pm)).mapM (WalEntry.writeAdv crc pm) = .ok encs ∧
      Forall₂ (fun e' e => e'.equal e = true) replays entries := by
  induction entries with
  | nil => exact ⟨[], [], .nil, rfl, .nil⟩
  | cons e entries ih =>
    obtain ⟨encs, replays, hlog, hok, hequal⟩ := ih fun a ha => h a (mem_cons_of_mem _ ha)
    obtain ⟨hsize, hvalid⟩ := h e mem_cons_self
    obtain ⟨bytes, checksum, henc⟩ : ∃ bytes checksum, WalEntry.Encodes crc pm e bytes _ := e.encodes hsize hvalid
    refine ⟨bytes :: encs, _ :: replays, .cons henc (henc.size ▸ hsize) hlog, ?_, .cons henc.equal hequal⟩
    rw [map_cons, mapM_cons, henc.writes, hok]
    rfl

end WalEntryIterator

open WalEntryIterator in
/-- **Reading a torn log.** Let a log be cut after `m` bytes. Forwards, the iterator gives the whole
entries in order and stops behind the last of them, at the end or with a bad entry, if and only if
the cut is not inside the size field of an entry; else it reads outside the buffer. Backwards over
the whole log, it gives all entries in reverse. -/
theorem torn_log_iteration (N : Nested) (crc : Bytes → BitVec 32) (pm : Bool) (entries : List (WalEntry N))
    (h : ∀ e ∈ entries, e.sizeInBytes pm < 2 ^ 31 ∧ ∀ c ∈ e.cmds, c.AddressesValid pm) (encs : List Bytes)
    (hencs : (entries.map (WalEntry.measured pm)).mapM (WalEntry.writeAdv crc pm) = .ok encs)
    (hmem : encs.flatten.length < 2 ^ 64) :
    ∃ replays, List.Forall₂ (fun e' e => e'.equal e = true) replays entries ∧
      (∀ (m : Nat) (hm : (encs.flatten.take m).length < 2 ^ 64), m ≤ encs.flatten.length →
        ∀ fuel, entries.length < fuel →
        (iterate crc pm fuel (make (encs.flatten.take m) hm false) =
            some ⟨replays.take (wholeCount encs m), decide (wholeLength encs m < m), wholeLength encs m⟩ ↔
          m = wholeLength encs m ∨ wholeLength encs m + 4 ≤ m)) ∧
      ∀ fuel, entries.length < fuel →
        iterate crc pm fuel (make encs.flatten hmem true) = some ⟨replays.reverse, false, 0⟩ := by
  obtain ⟨encs', replays, hlog, hok, hequal⟩ : ∃ encs' replays, Log crc pm entries encs' replays ∧ _ ∧ _ :=
    log_of_entries h
  obtain rfl : encs = encs' := Except.ok.inj (hencs.symm.trans hok)
  refine ⟨replays, hequal, fun m hm hle fuel hfuel => ?_, fun fuel hfuel => ?_⟩
  · have hrun := iterate_forward hlog [] hle hmem hm hfuel
    simp only [length_nil, zero_add] at hrun
    rw [show make (encs.flatten.take m) hm false = ⟨false, 0, [] ++ encs.flatten.take m, hm⟩ from rfl, hrun]
    refine ⟨fun hsome => by_contra fun hcut => ?_, fun hcut => if_pos hcut⟩
    rw [if_neg hcut] at hsome
    cases hsome
  · have hstart : iterate crc pm (fuel - entries.length) ⟨true, 0, encs.flatten ++ [], by simpa using hmem⟩ =
        some (⟨[], false, 0⟩ : Iterated N) :=
      iterate_end (by omega) (by simp [hasNext])
    have hrun := iterate_backward hlog [] [] (by simpa using hmem) hstart
    simp only [nil_append, append_nil, Nat.sub_add_cancel hfuel.le] at hrun
    exact hrun

theorem importEntry_length :
    ((importEntry.measured true).writeAdv (fun _ => 0) true).map length = .ok 157 := by decide +kernel

open WalEntryIterator in
/-- Two entries, of which the second is cut after its size. -/
theorem torn_log_iteration_two :
    ∃ bytes replays, List.Forall₂ (fun e' e => e'.equal e = true) replays [importEntry, importEntry] ∧
      ∃ hm, iterate (fun _ => 0) true 3 (make ([bytes, bytes].flatten.take 163) hm false) =
        some ⟨replays.take 1, true, 157⟩ := by
  obtain ⟨bytes, hbytes⟩ : ∃ bytes, (importEntry.measured true).writeAdv (fun _ => 0) true = .ok bytes := ⟨_, rfl⟩
  have hlen : bytes.length = 157 := by
    have := importEntry_length
    rw [hbytes] at this
    exact Except.ok.inj this
  have hcount : wholeCount [bytes, bytes] 163 = 1 := by simp [wholeCount, hlen]
  have hwhole : wholeLength [bytes, bytes] 163 = 157 := by simp [wholeLength, hcount, hlen]
  obtain ⟨replays, hequal, hcut, -⟩ := torn_log_iteration byteNested (fun _ => 0) true [importEntry, importEntry]
    (by
      intro e he
      obtain rfl : e = importEntry := by simpa using he
      exact ⟨by decide, importEntry_valid⟩)
    [bytes, bytes] (by simp only [map_cons, map_nil, mapM_cons, mapM_nil, hbytes]; rfl) (by simp [hlen])
  have hm : ([bytes, bytes].flatten.take 163).length < 2 ^ 64 := by simp [hlen]
  have hseen := (hcut 163 hm (by simp [hlen]) 3 (by decide)).mpr (.inr (by omega))
  rw [hcount, hwhole] at hseen
  exact ⟨bytes, replays, hequal, hm, hseen⟩

open WalEntryIterator in
/-- A log that is cut after two bytes: the iterator has a next entry, and reads the size of it past
the end of the buffer. -/
theorem cut_size_read_outside :
    ∃ bytes, (importEntry.measured true).writeAdv (fun _ => 0) true = .ok bytes ∧
      ∃ hm, (make (bytes.take 2) hm false).hasNext = true ∧
        (next (fun _ => 0) true (make (bytes.take 2) hm false) :
          Option (Option (WalEntry byteNested) × WalEntryIterator)) = none := by
  refine ⟨_, rfl, by decide +kernel, by decide +kernel, ?_⟩
  rfl

end Infinity.Wal.Codec

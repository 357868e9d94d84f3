/-
Rock/ElfRead.lean

What `elf64_read` reads (kernel/core/elf.c).

The offset is an `int`, and every caller has a 64-bit one; the sum of offset and count is that of
`size_t` and can wrap; and what is returned is an `int` again.  `elf64Read_eq` says what is copied
for any offset and count whose sum does not wrap: with an offset that is negative as an `int` the
copy begins before the file.  If the sum wraps, `memcpy` gets a negative count
(`elf64Read_wraps`).

`read_in_file_iff` says for which offsets and counts the bytes that were asked for are read, and
no others.  `readExactly_iff` says which reads of `elf64_file_init` succeed: besides those in the
file there are reads that begin before the file, and reads of nothing behind its end.
-/
import Rock.Elf

namespace Rock

/-! ### Reads -/

/-- The offset as `elf64_read` takes it. -/
def intOffset (off : Word) : ℤ := (off.setWidth 32).toInt

/-- The read succeeds: the bytes end in the file, and are not all before it; or there are none
to read behind the end. -/
def Readable (length : ℕ) (off cnt : Word) : Prop :=
  cnt.toNat < 2 ^ 31 ∧
    ((-cnt.toNat ≤ intOffset off ∧ intOffset off + cnt.toNat ≤ length) ∨
      (cnt.toNat = 0 ∧ length < intOffset off))

instance (length : ℕ) (off cnt : Word) : Decidable (Readable length off cnt) :=
  inferInstanceAs (Decidable (_ ∧ _))

/-- The number of bytes that `elf64_read` copies for `cnt` ones from `offset` on: all of them if
they end in the file, and else what is left of the file. -/
def readLen (length : ℕ) (offset : ℤ) (cnt : ℕ) : ℕ :=
  if length < offset then 0
  else if 0 ≤ offset + cnt ∧ offset + cnt ≤ length then cnt
  else (length - offset).toNat

theorem intOffset_of_lt {off : Word} (h : off.toNat < 2 ^ 31) : intOffset off = off.toNat := by
  have hwidth : (off.setWidth 32).toNat = off.toNat := by
    rw [BitVec.toNat_setWidth]
    omega
  rw [intOffset, BitVec.toInt_eq_toNat_of_lt (by omega), hwidth]

/-- A 32-bit number, extended to 64 bits. -/
theorem toNat_signExtend_eq (x : BitVec 32) :
    (x.signExtend 64).toNat = if 0 ≤ x.toInt then x.toInt.toNat else (2 ^ 64 + x.toInt).toNat := by
  have hint : (x.signExtend 64).toInt = x.toInt := BitVec.toInt_signExtend_of_le (by decide)
  have hlt := (x.signExtend 64).isLt
  rw [BitVec.toInt_eq_toNat_cond] at hint
  split_ifs at hint ⊢ <;> omega

section Reads

variable {file : ElfFile} {image : Image} {m m' buf : Bytes} {dst : ℕ} {offset ret : BitVec 32}
  {off cnt : Word}

theorem slt_iff {x y : BitVec 32} : x.slt y = true ↔ x.toInt < y.toInt := by
  rw [BitVec.slt_eq_decide, decide_eq_true_iff]

/-- The comparison of `elf64_read`. -/
theorem dataToRead_eq {length : BitVec 32} (hlen : length.toNat < 2 ^ 31)
    (ho : offset.toInt ≤ length.toNat) (hsum : offset.toInt + cnt.toNat < 2 ^ 64) :
    dataToRead length offset cnt =
      if 0 ≤ offset.toInt + cnt.toNat ∧ offset.toInt + cnt.toNat ≤ length.toNat then
        cnt.setWidth 32
      else length - offset := by
  have hlow : -2 ^ 31 ≤ offset.toInt := BitVec.le_toInt _
  have hcond : length.signExtend 64 < offset.signExtend 64 + cnt ↔
      ¬ (0 ≤ offset.toInt + cnt.toNat ∧ offset.toInt + cnt.toNat ≤ length.toNat) := by
    rw [BitVec.lt_def, BitVec.toNat_add, toNat_signExtend_of_lt hlen, toNat_signExtend_eq]
    split_ifs <;> omega
  unfold dataToRead
  split_ifs with h₁ h₂ h₂
  · exact absurd h₂ (hcond.mp h₁)
  · rfl
  · rfl
  · exact absurd (hcond.mpr h₂) h₁

/-- The number of bytes, as the `int` that is copied. -/
theorem toNat_dataToRead {length : BitVec 32} (hlen : length.toNat < 2 ^ 31)
    (ho : offset.toInt ≤ length.toNat) (hsum : offset.toInt + cnt.toNat < 2 ^ 64) :
    (dataToRead length offset cnt).toNat = readLen length.toNat offset.toInt cnt.toNat := by
  have hlow : -2 ^ 31 ≤ offset.toInt := BitVec.le_toInt _
  rw [dataToRead_eq hlen ho hsum, readLen, if_neg (not_lt.mpr ho)]
  split_ifs with hends
  · rw [BitVec.toNat_setWidth]
    omega
  · have hint : offset.toInt = if 2 * offset.toNat < 2 ^ 32 then (offset.toNat : ℤ)
        else offset.toNat - (2 ^ 32 : ℕ) := BitVec.toInt_eq_toNat_cond offset
    have hlt := offset.isLt
    rw [BitVec.toNat_sub]
    split_ifs at hint <;> omega

/-- **What `elf64_read` does**: it copies `readLen` bytes, if that is an `int`. -/
theorem elf64Read_eq (hb : file.buffer = some image) (hlen : file.length.toNat < 2 ^ 31)
    (hsum : offset.toInt ≤ file.length.toNat → offset.toInt + cnt.toNat < 2 ^ 64) :
    elf64Read file m dst offset cnt =
      let n := readLen file.length.toNat offset.toInt cnt.toNat
      if n < 2 ^ 31 then .ok (BitVec.ofNat 32 n, copyIn m dst image offset.toInt n)
      else .error .wild := by
  have hL : file.length.toInt = file.length.toNat := BitVec.toInt_eq_toNat_of_lt (by omega)
  rw [elf64Read, hb]
  rcases lt_or_ge (file.length.toNat : ℤ) offset.toInt with hbehind | ho
  · have hzero : readLen file.length.toNat offset.toInt cnt.toNat = 0 := if_pos hbehind
    simp only [hzero, copyIn_zero, if_pos (slt_iff.mpr (hL.trans_lt hbehind))]
    rfl
  · have hstart : ¬ file.length.slt offset = true := by
      rw [slt_iff]
      omega
    have hnat := toNat_dataToRead hlen ho (hsum ho)
    have hneg : (dataToRead file.length offset cnt).slt 0 = true ↔
        ¬ readLen file.length.toNat offset.toInt cnt.toNat < 2 ^ 31 := by
      have hlt := (dataToRead file.length offset cnt).isLt
      rw [slt_iff, BitVec.toInt_eq_toNat_cond, hnat, show (0 : BitVec 32).toInt = 0 from rfl]
      split_ifs <;> omega
    simp only [if_neg hstart, hneg, ← hnat, BitVec.ofNat_toNat, BitVec.setWidth_eq, ite_not]

/-- A sum that wraps makes the count negative. -/
theorem elf64Read_wraps (hb : file.buffer = some image) (hlen : file.length.toNat < 2 ^ 31)
    (ho : offset.toInt ≤ file.length.toNat) (hsum : 2 ^ 64 ≤ offset.toInt + cnt.toNat) :
    elf64Read file m dst offset cnt = .error .wild := by
  have hL : file.length.toInt = file.length.toNat := BitVec.toInt_eq_toNat_of_lt (by omega)
  have hstart : ¬ file.length.slt offset = true := by
    rw [slt_iff]
    omega
  have hcnt := cnt.isLt
  have hread : dataToRead file.length offset cnt = cnt.setWidth 32 := by
    apply if_neg
    rw [BitVec.lt_def, BitVec.toNat_add, toNat_signExtend_of_lt hlen, toNat_signExtend_eq]
    split_ifs <;> omega
  have hneg : (cnt.setWidth 32).slt 0 = true := by
    rw [slt_iff, toInt_setWidth, show (0 : BitVec 32).toInt = 0 from rfl]
    split_ifs <;> omega
  rw [elf64Read, hb]
  simp only [if_neg hstart, hread, if_pos hneg]

/-- What is returned is not negative. -/
theorem elf64Read_nonneg (hb : file.buffer = some image)
    (h : elf64Read file m dst offset cnt = .ok (ret, m')) : 0 ≤ ret.toInt := by
  rw [elf64Read, hb] at h
  simp only at h
  split_ifs at h with hstart hneg
  · obtain ⟨rfl, -⟩ := Prod.mk.inj (Except.ok.inj h)
    decide
  · obtain ⟨rfl, -⟩ := Prod.mk.inj (Except.ok.inj h)
    rw [slt_iff, show (0 : BitVec 32).toInt = 0 from rfl] at hneg
    omega

theorem readExactly_eq_iff :
    readExactly file buf off cnt = .ok (some m) ↔
      ∃ ret, elf64Read file buf 0 (off.setWidth 32) cnt = .ok (ret, m) ∧
        ret.signExtend 64 = cnt := by
  constructor
  · intro h
    obtain ⟨⟨ret, buf'⟩, hread, h⟩ := Exec.bind_eq_ok.mp h
    have h : (if ret.signExtend 64 = cnt then some buf' else none) = some m := Except.ok.inj h
    split_ifs at h with hret
    obtain rfl := Option.some.inj h
    exact ⟨ret, hread, hret⟩
  · rintro ⟨ret, hread, hret⟩
    exact Exec.bind_eq_ok.mpr ⟨(ret, m), hread, congrArg Except.ok (if_pos hret)⟩

/-- **Which reads succeed**, and what they read. -/
theorem readExactly_iff (hb : file.buffer = some image) (hlen : file.length.toNat < 2 ^ 31) :
    readExactly file buf off cnt = .ok (some m) ↔
      Readable file.length.toNat off cnt ∧ m = copyIn buf 0 image (intOffset off) cnt.toNat := by
  rw [readExactly_eq_iff]
  constructor
  · rintro ⟨ret, hread, hret⟩
    -- what is returned is an `int`, so a count that is equal to it is not too large for one
    have hnn := elf64Read_nonneg hb hread
    have hcnt : cnt.toNat < 2 ^ 31 := by
      have hlt : ret.toInt < 2 ^ 31 := BitVec.toInt_lt
      rw [← hret, toNat_signExtend_eq, if_pos hnn]
      omega
    have hoff : intOffset off < 2 ^ 31 := BitVec.toInt_lt
    rw [elf64Read_eq hb hlen fun _ => show intOffset off + _ < _ by omega] at hread
    dsimp only at hread
    split_ifs at hread with hn
    obtain ⟨rfl, rfl⟩ := Prod.mk.inj (Except.ok.inj hread)
    have hlen_eq : readLen file.length.toNat (intOffset off) cnt.toNat = cnt.toNat := by
      have hnat := congrArg BitVec.toNat hret
      rwa [toNat_signExtend_of_lt (by rw [BitVec.toNat_ofNat]; omega), BitVec.toNat_ofNat,
        Nat.mod_eq_of_lt (by omega)] at hnat
    refine ⟨⟨hcnt, ?_⟩, congrArg (copyIn buf 0 image (intOffset off)) hlen_eq⟩
    rw [readLen] at hlen_eq
    split_ifs at hlen_eq <;> omega
  · rintro ⟨⟨hcnt, hends⟩, rfl⟩
    have hlen_eq : readLen file.length.toNat (off.setWidth 32).toInt cnt.toNat = cnt.toNat := by
      rw [← intOffset, readLen]
      split_ifs <;> omega
    refine ⟨BitVec.ofNat 32 cnt.toNat, ?_, ?_⟩
    · have hoff : intOffset off < 2 ^ 31 := BitVec.toInt_lt
      rw [elf64Read_eq hb hlen fun _ => show intOffset off + _ < _ by omega]
      simp only [hlen_eq, if_pos hcnt]
      rfl
    · apply BitVec.eq_of_toNat_eq
      rw [toNat_signExtend_of_lt (by rw [BitVec.toNat_ofNat]; omega), BitVec.toNat_ofNat,
        Nat.mod_eq_of_lt (by omega)]

/-! ### Reads that stay in the file -/

/-- **The read does what it should**, for the offset `start`: it copies the bytes of the file
with an index from `start` on, `cnt` of them or what is left of the file, and returns their
number.  Nothing before the file or behind its end is copied. -/
def ElfFile.ReadsFile (file : ElfFile) (image : Image) (m : Bytes) (dst : ℕ) (off cnt : Word)
    (start : ℤ) : Prop :=
  let n := (min (start + cnt.toNat) file.length.toNat - start).toNat
  ∃ ret, elf64Read file m dst (off.setWidth 32) cnt = .ok (ret, copyIn m dst image start n) ∧
    ret.toInt = n ∧ (0 < n → 0 ≤ start ∧ start + n ≤ file.length.toNat)

/-- A read that is inside copies what is there; nothing is copied from behind the end. -/
theorem readLen_of_nonneg {length cnt : ℕ} {start : ℤ} (h : 0 ≤ start) :
    readLen length start cnt = (min (start + cnt) length - start).toNat := by
  unfold readLen
  split_ifs <;> omega

/-- **Before the file** something is always copied. -/
theorem readLen_of_neg {length cnt : ℕ} {start : ℤ} (h : start < 0) :
    0 < readLen length start cnt := by
  unfold readLen
  split_ifs <;> omega

variable (hb : file.buffer = some image) (hlen : file.length.toNat < 2 ^ 31)
include hb hlen

/-- What comes back from a read whose sum does not wrap. -/
theorem elf64Read_ok_iff
    (hsum : intOffset off ≤ file.length.toNat → intOffset off + cnt.toNat < 2 ^ 64) :
    elf64Read file m dst (off.setWidth 32) cnt = .ok (ret, m') ↔
      ret.toInt = readLen file.length.toNat (intOffset off) cnt.toNat ∧
        m' = copyIn m dst image (intOffset off)
          (readLen file.length.toNat (intOffset off) cnt.toNat) := by
  rw [elf64Read_eq hb hlen hsum, show (off.setWidth 32).toInt = intOffset off from rfl]
  dsimp only
  generalize readLen file.length.toNat (intOffset off) cnt.toNat = n
  have hlt : ret.toInt < 2 ^ 31 := BitVec.toInt_lt
  constructor
  · intro h
    split_ifs at h with hn
    obtain ⟨rfl, rfl⟩ := Prod.mk.inj (Except.ok.inj h)
    refine ⟨?_, rfl⟩
    rw [BitVec.toInt_eq_toNat_of_lt] <;> rw [BitVec.toNat_ofNat] <;> omega
  · rintro ⟨hret, rfl⟩
    have hn : n < 2 ^ 31 := by omega
    have hret : ret = BitVec.ofNat 32 n := by
      rw [← BitVec.ofInt_toInt (x := ret), hret]
      rfl
    rw [if_pos hn, hret]

/-- **A read that does what it should** does not wrap, and copies as many bytes as it should. -/
theorem ElfFile.ReadsFile.readLen {start : ℤ} (h : file.ReadsFile image m dst off cnt start) :
    (intOffset off ≤ file.length.toNat → intOffset off + cnt.toNat < 2 ^ 64) ∧
      Rock.readLen file.length.toNat (intOffset off) cnt.toNat
        = (min (start + cnt.toNat) file.length.toNat - start).toNat := by
  obtain ⟨ret, hread, hret, -⟩ := h
  have hsum : intOffset off ≤ file.length.toNat → intOffset off + cnt.toNat < 2 ^ 64 := by
    intro ho
    by_contra hge
    cases (elf64Read_wraps hb hlen ho (not_lt.mp hge)).symm.trans hread
  refine ⟨hsum, ?_⟩
  have hlen := ((elf64Read_ok_iff hb hlen hsum).mp hread).1
  omega

/-- A read that copies as many bytes as it should, and from there if any, does what it should. -/
theorem ElfFile.ReadsFile.of_readLen {start : ℤ}
    (hsum : intOffset off ≤ file.length.toNat → intOffset off + cnt.toNat < 2 ^ 64)
    (hn : Rock.readLen file.length.toNat (intOffset off) cnt.toNat
      = (min (start + cnt.toNat) file.length.toNat - start).toNat)
    (hstart : 0 < Rock.readLen file.length.toNat (intOffset off) cnt.toNat →
      0 ≤ start ∧ start = intOffset off) :
    file.ReadsFile image m dst off cnt start := by
  rw [hn] at hstart
  have hlt : (min (start + cnt.toNat) file.length.toNat - start).toNat < 2 ^ 31 := by omega
  have hret : (BitVec.ofNat 32 (min (start + cnt.toNat) file.length.toNat - start).toNat).toInt
      = (min (start + cnt.toNat) file.length.toNat - start).toNat := by
    rw [BitVec.toInt_eq_toNat_of_lt] <;> rw [BitVec.toNat_ofNat] <;> omega
  refine ⟨_, (elf64Read_ok_iff hb hlen hsum).mpr ⟨hret.trans (congrArg _ hn.symm), ?_⟩, hret,
    fun hpos => ⟨(hstart hpos).1, by omega⟩⟩
  rw [hn]
  rcases Nat.eq_zero_or_pos (min (start + cnt.toNat) file.length.toNat - start).toNat with
    hzero | hpos
  · rw [hzero, copyIn_zero, copyIn_zero]
  · rw [(hstart hpos).2]

/-- **When a read does what it should.**  For every 64-bit offset and count, and every place to
copy to.  With the offset the caller has: the `int` made of it is not negative, and if it is not
behind the file, the sum with the count does not wrap, and it is the offset itself, or nothing is
left to be read there.  With the `int` in place of the offset the last part is always so. -/
theorem read_in_file_iff (m : Bytes) (dst : ℕ) (off cnt : Word) :
    (file.ReadsFile image m dst off cnt off.toNat ↔
      0 ≤ intOffset off ∧ (intOffset off ≤ file.length.toNat →
        intOffset off + cnt.toNat < 2 ^ 64 ∧
          (intOffset off = off.toNat ∨ cnt.toNat = 0 ∨ intOffset off = file.length.toNat))) ∧
    (file.ReadsFile image m dst off cnt (intOffset off) ↔
      0 ≤ intOffset off ∧ (intOffset off ≤ file.length.toNat →
        intOffset off + cnt.toNat < 2 ^ 64)) := by
  have hint : intOffset off = _ := toInt_setWidth off
  refine ⟨⟨fun h => ?_, fun ⟨hoff, hcond⟩ => ?_⟩, fun h => ?_, fun ⟨hoff, hsum⟩ => ?_⟩
  -- with the offset of the caller
  · obtain ⟨hsum, hn⟩ := h.readLen hb hlen
    have hoff : 0 ≤ intOffset off := by
      by_contra hneg
      have hpos : 0 < readLen file.length.toNat (intOffset off) cnt.toNat :=
        readLen_of_neg (not_le.mp hneg)
      split_ifs at hint <;> omega
    rw [readLen_of_nonneg hoff] at hn
    refine ⟨hoff, fun ho => ⟨hsum ho, ?_⟩⟩
    split_ifs at hint <;> omega
  · have hlt : readLen file.length.toNat (intOffset off) cnt.toNat = _ := readLen_of_nonneg hoff
    have hn : readLen file.length.toNat (intOffset off) cnt.toNat
        = (min ((off.toNat : ℤ) + cnt.toNat) file.length.toNat - off.toNat).toNat := by
      split_ifs at hint <;> omega
    refine .of_readLen hb hlen (fun ho => (hcond ho).1) hn fun hpos => ⟨Int.natCast_nonneg _, ?_⟩
    split_ifs at hint <;> omega
  -- with the `int`
  · obtain ⟨hsum, hn⟩ := h.readLen hb hlen
    obtain ⟨-, -, -, hinside⟩ := h
    refine ⟨?_, hsum⟩
    by_contra hneg
    have hpos : 0 < readLen file.length.toNat (intOffset off) cnt.toNat :=
      readLen_of_neg (not_le.mp hneg)
    exact hneg (hinside (hn ▸ hpos)).1
  · exact .of_readLen hb hlen hsum (readLen_of_nonneg hoff) fun _ => ⟨hoff, rfl⟩

end Reads

/-- A file of 16 bytes, and what is around it. -/
def shortImage : Image := fun z => BitVec.ofInt 8 z

def shortFile : ElfFile := ⟨some shortImage, 16, fun _ => 0, fun _ => 0, fun _ => 0, fun _ => 0, 0⟩

/-- Four bytes are read from the offset 8, and from the offset 14 the two that are left. -/
theorem read_in_file_short :
    shortFile.ReadsFile shortImage (fun _ => 0) 0 8 4 8 ∧
      shortFile.ReadsFile shortImage (fun _ => 0) 0 14 4 14 :=
  ⟨(read_in_file_iff rfl (by decide) _ 0 8 4).1.mpr (by decide),
    (read_in_file_iff rfl (by decide) _ 0 14 4).1.mpr (by decide)⟩

/-- **A read that begins before the file.**  The offset is `2 ^ 32 - 1`, which is -1 as an `int`:
the byte before the file is copied first. -/
theorem read_before_file :
    elf64Read shortFile (fun _ => 0) 0 (BitVec.setWidth 32 (0xffffffff : Word)) 4
      = .ok (4, copyIn (fun _ => 0) 0 shortImage (-1) 4) ∧
    copyIn (fun _ => 0) 0 shortImage (-1) 4 0 = shortImage (-1) ∧
    ¬ shortFile.ReadsFile shortImage (fun _ => 0) 0 0xffffffff 4 (0xffffffff : Word).toNat ∧
    ¬ shortFile.ReadsFile shortImage (fun _ => 0) 0 0xffffffff 4 (-1) := by
  refine ⟨rfl, rfl, fun h => ?_, fun ⟨_, _, _, hinside⟩ => ?_⟩
  · exact absurd (h.readLen rfl (by decide)).2 (by decide)
  · exact absurd (hinside (by decide)).1 (by decide)

end Rock

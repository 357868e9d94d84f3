/-
Rock/Elf.lean

ELF files, as the kernel reads them (kernel/core/elf.c, elf.h).

`elf64_read` copies bytes of the file into a buffer.  Its offset is an `int`, although
every caller takes it from a 64-bit field, and so are the length of the file and the
count it returns; the comparisons in between are signed or unsigned as C has it.  The
model keeps all of that: the file is an `Image`, which has bytes before its start and
behind its end, and a negative count is a `memcpy` that runs off the memory.

`elf64_file_init` reads the header, the section headers, the program headers and the
string table into buffers of their own.  A buffer is a `Bytes`: what was not copied into it
is what the allocator has left there, and an index that is too large reads on behind it.
-/
import Rock.Exec
import Rock.Bytes
import Rock.Paging

namespace Rock

/-! ### Structures of the file -/

/-- A `struct elf64_phdr`; `p_paddr`, `p_memsz` and `p_align` are not used. -/
structure Phdr where
  type : BitVec 32
  flags : BitVec 32
  offset : Word
  vaddr : Word
  filesz : Word
  deriving DecidableEq, Repr

/-- A `struct elf64_shdr`; the fields that are not used are left out. -/
structure Shdr where
  name : BitVec 32
  flags : Word
  addr : Word
  offset : Word
  size : Word
  deriving DecidableEq, Repr

def elfPtLoad : BitVec 32 := 1

/-- `sizeof(struct elf64_hdr)`. -/
def ehdrSize : ℕ := 64

/-- `sizeof(struct elf64_phdr)`. -/
def phdrSize : ℕ := 56

/-- `sizeof(struct elf64_shdr)`. -/
def shdrSize : ℕ := 64

/-- The 64-bit number at `off`. -/
def word64 (m : Bytes) (off : ℕ) : Word := BitVec.ofNat 64 (le m off 8)

/-- A `struct elf64_file`: the file in memory and the `int` that is its length, and the
buffers for its parts.  `none` is a `NULL` buffer. -/
structure ElfFile where
  buffer : Option Image
  length : BitVec 32
  hdr : Bytes
  phdr : Bytes
  shdr : Bytes
  strtab : Bytes
  loadOffset : Word

namespace ElfFile

def phoff (file : ElfFile) : Word := word64 file.hdr 32

def shoff (file : ElfFile) : Word := word64 file.hdr 40

def phNum (file : ElfFile) : ℕ := le file.hdr 56 2

def shNum (file : ElfFile) : ℕ := le file.hdr 60 2

def shstrndx (file : ElfFile) : ℕ := le file.hdr 62 2

/-- `file->phdr[i]`. -/
def phdrAt (file : ElfFile) (i : ℕ) : Phdr :=
  let off := phdrSize * i
  { type := int32 file.phdr off
    flags := int32 file.phdr (off + 4)
    offset := word64 file.phdr (off + 8)
    vaddr := word64 file.phdr (off + 16)
    filesz := word64 file.phdr (off + 32) }

/-- `file->shdr[i]`. -/
def shdrAt (file : ElfFile) (i : ℕ) : Shdr :=
  let off := shdrSize * i
  { name := int32 file.shdr off
    flags := word64 file.shdr (off + 8)
    addr := word64 file.shdr (off + 16)
    offset := word64 file.shdr (off + 24)
    size := word64 file.shdr (off + 32) }

theorem phdrAt_congr {file file' : ElfFile} {n i : ℕ}
    (h : ∀ k < phdrSize * n, file'.phdr k = file.phdr k) (hi : i < n) :
    file'.phdrAt i = file.phdrAt i := by
  have hle : ∀ off len, off + len ≤ phdrSize →
      le file'.phdr (phdrSize * i + off) len = le file.phdr (phdrSize * i + off) len := by
    intro off len hoff
    have hend : phdrSize * i + phdrSize ≤ phdrSize * n := Nat.mul_le_mul_left phdrSize hi
    exact le_congr fun k _ hk => h k (by omega)
  have h₀ := hle 0 4 (by decide)
  rw [Nat.add_zero] at h₀
  simp only [phdrAt, int32, word64, h₀, hle 4 4 (by decide), hle 8 8 (by decide),
    hle 16 8 (by decide), hle 32 8 (by decide)]

/-- A byte of the file. -/
def byte (file : ElfFile) (k : ℕ) : Option (BitVec 8) := file.buffer.map fun image => image k

end ElfFile

/-! ### Reading the file -/

/-- `data_to_read`: the sum and the comparison are those of `size_t`, the difference is
that of `int`. -/
def dataToRead (length offset : BitVec 32) (cnt : Word) : BitVec 32 :=
  if length.signExtend 64 < offset.signExtend 64 + cnt then length - offset else cnt.setWidth 32

/-- `elf64_read`, into the memory `m` at `dst`; the result is the returned `int`. -/
def elf64Read (file : ElfFile) (m : Bytes) (dst : ℕ) (offset : BitVec 32) (cnt : Word) :
    Exec (BitVec 32 × Bytes) :=
  match file.buffer with
  | none => .ok (-1, m)
  | some image =>
      if file.length.slt offset then .ok (0, m)
      else
        let n := dataToRead file.length offset cnt
        -- `memcpy` takes a negative count for one of almost 2^64
        if n.slt 0 then .error .wild else .ok (n, copyIn m dst image offset.toInt n.toNat)

/-- `elf64_validate` accepts the header. -/
def elf64Validate (hdr : Bytes) : Bool :=
  int32 hdr 0 = 0x464C457F && (hdr 7 = 0 || hdr 7 = 3) && hdr 5 = 1 && hdr 4 = 2 &&
    (le hdr 18 2 = 0x3e || le hdr 18 2 = 0)

/-- Read `cnt` bytes at the 64-bit offset; `none` if `elf64_read` returns another number. -/
def readExactly (file : ElfFile) (buf : Bytes) (offset cnt : Word) : Exec (Option Bytes) := do
  let (ret, buf) ← elf64Read file buf 0 (offset.setWidth 32) cnt
  .ok (if ret.signExtend 64 = cnt then some buf else none)

/-- `elf64_file_init`, with what the allocator returned in the buffers; `none` is -1. -/
def elf64FileInit (file : ElfFile) : Exec (Option ElfFile) := do
  let some hdr ← readExactly file file.hdr 0 (BitVec.ofNat 64 ehdrSize) | .ok none
  let file := { file with hdr := hdr }
  let some shdr ← readExactly file file.shdr file.shoff (BitVec.ofNat 64 (shdrSize * file.shNum))
    | .ok none
  let file := { file with shdr := shdr }
  if !elf64Validate file.hdr then .ok none
  else do
    let some phdr ←
      readExactly file file.phdr file.phoff (BitVec.ofNat 64 (phdrSize * file.phNum)) | .ok none
    let file := { file with phdr := phdr }
    let strtabHdr := file.shdrAt file.shstrndx
    let some strtab ← readExactly file file.strtab strtabHdr.offset strtabHdr.size | .ok none
    .ok (some { file with strtab := strtab })

/-- The file was accepted. -/
def ElfFile.Accepted (file : ElfFile) : Prop := ∃ file₀, elf64FileInit file₀ = .ok (some file)

/-! ### What is read -/

section Reads

variable {file file' : ElfFile} {image : Image} {m m' buf : Bytes} {dst : ℕ}
  {offset ret : BitVec 32} {cnt : Word}

theorem slt_of_toNat_lt {x y : BitVec 32} (hx : x.toNat < 2 ^ 31) (hy : y.toNat < 2 ^ 31) :
    x.slt y = decide (x.toNat < y.toNat) := by
  rw [BitVec.slt_eq_decide, BitVec.toInt_eq_toNat_of_lt (by omega),
    BitVec.toInt_eq_toNat_of_lt (by omega)]
  exact decide_eq_decide.mpr Int.ofNat_lt

theorem toNat_signExtend_of_lt {x : BitVec 32} (hx : x.toNat < 2 ^ 31) :
    (x.signExtend 64).toNat = x.toNat := by
  have hmsb : x.msb = false := BitVec.msb_eq_false_iff_two_mul_lt.mpr (by omega)
  rw [BitVec.signExtend_eq_setWidth_of_msb_false hmsb, BitVec.toNat_setWidth]
  omega

/-- A read inside the file copies as many bytes as it is asked for. -/
theorem elf64Read_inside (hb : file.buffer = some image) (hlen : file.length.toNat < 2 ^ 31)
    (h : offset.toNat + cnt.toNat ≤ file.length.toNat) :
    elf64Read file m dst offset cnt
      = .ok (cnt.setWidth 32, copyIn m dst image offset.toNat cnt.toNat) := by
  have hoff : offset.toNat < 2 ^ 31 := by omega
  have hcnt : cnt.toNat < 2 ^ 31 := by omega
  have hwidth : (cnt.setWidth 32).toNat = cnt.toNat := by
    rw [BitVec.toNat_setWidth]
    omega
  have hn : dataToRead file.length offset cnt = cnt.setWidth 32 := by
    apply if_neg
    rw [BitVec.lt_def, BitVec.toNat_add, toNat_signExtend_of_lt hlen, toNat_signExtend_of_lt hoff]
    omega
  have hstart : file.length.slt offset = false := by
    rw [slt_of_toNat_lt hlen hoff]
    exact decide_eq_false (by omega)
  have hpos : (cnt.setWidth 32).slt 0 = false := by
    rw [slt_of_toNat_lt (by omega) (by decide)]
    exact decide_eq_false (Nat.not_lt_zero _)
  rw [elf64Read, hb]
  simp only [hn, hstart, hpos, hwidth, Bool.false_eq_true, if_false,
    BitVec.toInt_eq_toNat_of_lt (show 2 * offset.toNat < 2 ^ 32 by omega)]

theorem readExactly_inside {off : Word} (hb : file.buffer = some image)
    (hlen : file.length.toNat < 2 ^ 31) (h : off.toNat + cnt.toNat ≤ file.length.toNat) :
    readExactly file buf off cnt = .ok (some (copyIn buf 0 image off.toNat cnt.toNat)) := by
  have hoff : (off.setWidth 32).toNat = off.toNat := by
    rw [BitVec.toNat_setWidth]
    omega
  have hret : (cnt.setWidth 32).signExtend 64 = cnt := by
    apply BitVec.eq_of_toNat_eq
    rw [toNat_signExtend_of_lt] <;> rw [BitVec.toNat_setWidth] <;> omega
  rw [readExactly, elf64Read_inside hb hlen (by omega), Exec.ok_bind, hoff]
  exact congrArg _ (if_pos hret)

/-- A file that can be read has a buffer and a length that is not negative. -/
theorem buffer_of_readExactly
    (h : readExactly file buf 0 (BitVec.ofNat 64 ehdrSize) = .ok (some m)) :
    (∃ image, file.buffer = some image) ∧ file.length.toNat < 2 ^ 31 := by
  obtain ⟨⟨ret, buf'⟩, hread, hret⟩ := Exec.bind_eq_ok.mp h
  have hret : ret.signExtend 64 = BitVec.ofNat 64 ehdrSize := by
    by_contra hne
    simp [hne] at hret
  rw [elf64Read] at hread
  rcases hb : file.buffer with - | image <;> simp only [hb] at hread
  · obtain ⟨rfl, -⟩ := Prod.mk.inj (Except.ok.inj hread)
    exact absurd hret (by decide)
  · refine ⟨⟨image, rfl⟩, ?_⟩
    by_contra hneg
    have hslt : file.length.slt ((0 : Word).setWidth 32) = true := by
      rw [BitVec.slt_eq_decide]
      apply decide_eq_true
      show file.length.toInt < 0
      rw [BitVec.toInt_eq_toNat_cond]
      split_ifs <;> omega
    rw [if_pos hslt] at hread
    obtain ⟨rfl, -⟩ := Prod.mk.inj (Except.ok.inj hread)
    exact absurd hret (by decide)

end Reads

/-! ### Accepted files -/

/-- The parts of an accepted file, in the order in which they are read. -/
theorem elf64FileInit_cases {file₀ file : ElfFile} (h : elf64FileInit file₀ = .ok (some file)) :
    readExactly file₀ file₀.hdr 0 (BitVec.ofNat 64 ehdrSize) = .ok (some file.hdr) ∧
      readExactly file₀ file₀.shdr file.shoff (BitVec.ofNat 64 (shdrSize * file.shNum))
        = .ok (some file.shdr) ∧
      elf64Validate file.hdr = true ∧
      readExactly file₀ file₀.phdr file.phoff (BitVec.ofNat 64 (phdrSize * file.phNum))
        = .ok (some file.phdr) ∧
      readExactly file₀ file₀.strtab (file.shdrAt file.shstrndx).offset
        (file.shdrAt file.shstrndx).size = .ok (some file.strtab) ∧
      file.buffer = file₀.buffer ∧ file.length = file₀.length ∧
      file.loadOffset = file₀.loadOffset := by
  rw [elf64FileInit] at h
  obtain ⟨- | hdr, hhdr, h⟩ := Exec.bind_eq_ok.mp h
  · cases h
  obtain ⟨- | shdr, hshdr, h⟩ := Exec.bind_eq_ok.mp h
  · cases h
  rcases hvalid : elf64Validate hdr with - | -
  · simp [hvalid] at h
  simp only [hvalid, Bool.not_true, Bool.false_eq_true, if_false] at h
  obtain ⟨- | phdr, hphdr, h⟩ := Exec.bind_eq_ok.mp h
  · cases h
  obtain ⟨- | strtab, hstrtab, h⟩ := Exec.bind_eq_ok.mp h
  · cases h
  obtain rfl := Option.some.inj (Except.ok.inj h)
  exact ⟨hhdr, hshdr, hvalid, hphdr, hstrtab, rfl, rfl, rfl⟩

/-- A file of which all parts can be read is accepted. -/
theorem elf64FileInit_eq {file : ElfFile} {hdr phdr shdr strtab : Bytes}
    (hhdr : readExactly file file.hdr 0 (BitVec.ofNat 64 ehdrSize) = .ok (some hdr))
    (hshdr : readExactly file file.shdr (word64 hdr 40) (BitVec.ofNat 64 (shdrSize * le hdr 60 2))
      = .ok (some shdr))
    (hvalid : elf64Validate hdr = true)
    (hphdr : readExactly file file.phdr (word64 hdr 32) (BitVec.ofNat 64 (phdrSize * le hdr 56 2))
      = .ok (some phdr))
    (hstrtab : readExactly file file.strtab (word64 shdr (shdrSize * le hdr 62 2 + 24))
      (word64 shdr (shdrSize * le hdr 62 2 + 32)) = .ok (some strtab)) :
    elf64FileInit file = .ok (some { file with
      hdr := hdr
      phdr := phdr
      shdr := shdr
      strtab := strtab }) := by
  -- a read looks at the buffer and the length only, which the fields read before leave alone
  apply Exec.bind_eq_ok.mpr ⟨_, hhdr, ?_⟩
  apply Exec.bind_eq_ok.mpr ⟨_, hshdr, ?_⟩
  refine (if_neg (by simp [hvalid])).trans ?_
  apply Exec.bind_eq_ok.mpr ⟨_, hphdr, ?_⟩
  exact Exec.bind_eq_ok.mpr ⟨_, hstrtab, rfl⟩

theorem ElfFile.Accepted.buffer {file : ElfFile} (h : file.Accepted) :
    (∃ image, file.buffer = some image) ∧ file.length.toNat < 2 ^ 31 := by
  obtain ⟨file₀, h⟩ := h
  obtain ⟨hhdr, -, -, -, -, hb, hlen, -⟩ := elf64FileInit_cases h
  rw [hb, hlen]
  exact buffer_of_readExactly hhdr

/-! ### A file with given program headers -/

/-- The header of a file that has `n` program headers at `tables` and one section header behind
them. -/
def ehdrFor (tables n : ℕ) : Bytes :=
  let m := putLe (fun _ => 0) 0 4 0x464C457F
  let m := putLe m 4 1 2
  let m := putLe m 5 1 1
  let m := putLe m 32 8 tables
  let m := putLe m 40 8 (tables + phdrSize * n)
  let m := putLe m 56 2 n
  putLe m 60 2 1

section Header

variable {tables n : ℕ}

theorem ehdrFor_phNum (hn : n < 2 ^ 16) : le (ehdrFor tables n) 56 2 = n := by
  simp (disch := omega) only [ehdrFor, le_putLe_of_apart, le_putLe]

theorem ehdrFor_shNum : le (ehdrFor tables n) 60 2 = 1 := by
  simp (disch := omega) only [ehdrFor, le_putLe]

theorem ehdrFor_shstrndx : le (ehdrFor tables n) 62 2 = 0 := by
  simp (disch := omega) only [ehdrFor, le_putLe_of_apart]
  rfl

theorem ehdrFor_phoff (h : tables < 2 ^ 64) : le (ehdrFor tables n) 32 8 = tables := by
  simp (disch := omega) only [ehdrFor, le_putLe_of_apart, le_putLe]

theorem ehdrFor_shoff (h : tables + phdrSize * n < 2 ^ 64) :
    le (ehdrFor tables n) 40 8 = tables + phdrSize * n := by
  simp (disch := omega) only [ehdrFor, le_putLe_of_apart, le_putLe]

/-- Behind the header nothing is set. -/
theorem ehdrFor_of_le {k : ℕ} (h : ehdrSize ≤ k) : ehdrFor tables n k = 0 := by
  have hk : 64 ≤ k := h
  simp (disch := omega) only [ehdrFor, putLe_of_outside]

/-- The header is that of a little-endian 64-bit file. -/
theorem ehdrFor_validate (tables n : ℕ) : elf64Validate (ehdrFor tables n) = true := by
  have hsignature : le (ehdrFor tables n) 0 4 = 0x464C457F := by
    simp (disch := omega) only [ehdrFor, le_putLe_of_apart, le_putLe]
  have hmachine : le (ehdrFor tables n) 18 2 = 0 := by
    simp (disch := omega) only [ehdrFor, le_putLe_of_apart]
    rfl
  have hosabi : ehdrFor tables n 7 = 0 := by
    simp (disch := omega) only [ehdrFor, putLe_of_outside]
  have hdata : ehdrFor tables n 5 = 1 := by
    simp (disch := omega) only [ehdrFor, putLe_of_outside]
    rfl
  have hclass : ehdrFor tables n 4 = 2 := by
    simp (disch := omega) only [ehdrFor, putLe_of_outside]
    rfl
  simp [elf64Validate, int32, hsignature, hmachine, hosabi, hdata, hclass]

end Header

theorem elf64Validate_congr {hdr hdr' : Bytes} (h : ∀ k < ehdrSize, hdr k = hdr' k) :
    elf64Validate hdr = elf64Validate hdr' := by
  have hle : ∀ off n, off + n ≤ ehdrSize → le hdr off n = le hdr' off n := fun off n hn =>
    le_congr fun k _ hk => h k (by omega)
  rw [elf64Validate, elf64Validate, int32, int32, hle 0 4 (by decide), hle 18 2 (by decide),
    h 7 (by decide), h 5 (by decide), h 4 (by decide)]

/-- The bytes are those of a file that has the `n` program headers `phdr` at `tables` and an
empty section header behind them. -/
structure LaidOut (bytes phdr : Bytes) (tables n : ℕ) : Prop where
  count : n < 2 ^ 16
  behind : ehdrSize ≤ tables
  fits : tables + phdrSize * n + shdrSize < 2 ^ 31
  ehdr : ∀ k < ehdrSize, bytes k = ehdrFor tables n k
  phdrs : ∀ k < phdrSize * n, bytes (tables + k) = phdr k
  shdr : ∀ k < shdrSize, bytes (tables + phdrSize * n + k) = 0

/-- The bytes of a file with the program headers `phdr` that has `c` at `x`. -/
def markedBytes (phdr : Bytes) (tables n x : ℕ) (c : BitVec 8) : Bytes :=
  Function.update (fun k =>
    if tables ≤ k ∧ k < tables + phdrSize * n then phdr (k - tables) else ehdrFor tables n k) x c

/-- The mark is beside the tables. -/
theorem laidOut_markedBytes (phdr : Bytes) {tables n x : ℕ} (c : BitVec 8) (hcount : n < 2 ^ 16)
    (hbehind : ehdrSize ≤ tables) (hfits : tables + phdrSize * n + shdrSize < 2 ^ 31)
    (hx : ehdrSize ≤ x) (hbeside : x < tables ∨ tables + phdrSize * n + shdrSize ≤ x) :
    LaidOut (markedBytes phdr tables n x c) phdr tables n := by
  have hother : ∀ k ≠ x, markedBytes phdr tables n x c k
      = if tables ≤ k ∧ k < tables + phdrSize * n then phdr (k - tables) else ehdrFor tables n k :=
    fun k hk => Function.update_of_ne hk _ _
  refine ⟨hcount, hbehind, hfits, fun k hk => ?_, fun k hk => ?_, fun k hk => ?_⟩
  · rw [hother k (by omega), if_neg (by omega)]
  · rw [hother _ (by omega), if_pos (by omega), Nat.add_sub_cancel_left]
  · rw [hother _ (by omega), if_neg (by omega), ehdrFor_of_le (by omega)]

/-- A file of these bytes before it is read, of the greatest length. -/
def unreadFile (bytes : Bytes) (loadOffset : Word) : ElfFile where
  buffer := some fun z => bytes z.toNat
  length := BitVec.ofNat 32 (2 ^ 31 - 1)
  hdr _ := 0
  phdr _ := 0
  shdr _ := 0
  strtab _ := 0
  loadOffset := loadOffset

/-- The buffer that `n` bytes from `start` on have been read into. -/
def readPart (bytes : Bytes) (start n : ℕ) : Bytes :=
  copyIn (fun _ => 0) 0 (fun z => bytes z.toNat) start n

theorem readPart_of_lt {bytes : Bytes} {start n k : ℕ} (h : k < n) :
    readPart bytes start n k = bytes (start + k) := by
  have hcopy : readPart bytes start n (0 + k) = bytes (start + k : ℤ).toNat := copyIn_inside h
  rwa [Nat.zero_add, ← Int.natCast_add, Int.toNat_natCast] at hcopy

theorem le_readPart {bytes : Bytes} {start n off k : ℕ} (h : off + k ≤ n) :
    le (readPart bytes start n) off k = le bytes (start + off) k := by
  apply le_shift
  intro i hi
  rw [readPart_of_lt (by omega), Nat.add_assoc]

theorem readExactly_unreadFile {bytes : Bytes} {loadOffset off cnt : Word}
    (h : off.toNat + cnt.toNat < 2 ^ 31) :
    readExactly (unreadFile bytes loadOffset) (fun _ => 0) off cnt
      = .ok (some (readPart bytes off.toNat cnt.toNat)) :=
  readExactly_inside rfl (by show 2 ^ 31 - 1 < 2 ^ 31; decide)
    (by show _ ≤ 2 ^ 31 - 1; exact Nat.le_pred_of_lt h)

/-- The file has the bytes, the program headers `phdr` and no section that has a size. -/
structure ElfFile.Holds (file : ElfFile) (bytes phdr : Bytes) (n : ℕ) : Prop where
  buffer : file.buffer = some fun z => bytes z.toNat
  length : file.length.toNat = 2 ^ 31 - 1
  phNum : file.phNum = n
  phdrs : ∀ k < phdrSize * n, file.phdr k = phdr k
  shNum : file.shNum = 1
  empty : (file.shdrAt 0).addr = 0 ∧ (file.shdrAt 0).size = 0

namespace LaidOut

variable {bytes phdr : Bytes} {tables n : ℕ}

/-- A number of the header. -/
theorem le_hdr (h : LaidOut bytes phdr tables n) {off k : ℕ} (hoff : off + k ≤ ehdrSize) :
    le (readPart bytes 0 ehdrSize) off k = le (ehdrFor tables n) off k := by
  rw [le_readPart hoff, Nat.zero_add]
  exact le_congr fun i _ hi => h.ehdr i (by omega)

/-- A number of the section header. -/
theorem word64_shdr (h : LaidOut bytes phdr tables n) {off : ℕ} (hoff : off + 8 ≤ shdrSize) :
    word64 (readPart bytes (tables + phdrSize * n) shdrSize) off = 0 := by
  have hzero : le (readPart bytes (tables + phdrSize * n) shdrSize) off 8 = 0 := by
    apply le_eq_zero_iff.mpr
    intro k _ hk
    rw [readPart_of_lt (by omega)]
    exact h.shdr k (by omega)
  exact congrArg (BitVec.ofNat 64) hzero

/-- **Program headers can be given**: for each table of them there is a file. -/
theorem accepted (h : LaidOut bytes phdr tables n) (loadOffset : Word) :
    ∃ file : ElfFile, file.Accepted ∧ file.loadOffset = loadOffset ∧
      file.Holds bytes phdr n := by
  have hfits := h.fits
  have hphoff : word64 (readPart bytes 0 ehdrSize) 32 = BitVec.ofNat 64 tables := by
    rw [word64, h.le_hdr (by decide), ehdrFor_phoff (by omega)]
  have hshoff : word64 (readPart bytes 0 ehdrSize) 40
      = BitVec.ofNat 64 (tables + phdrSize * n) := by
    rw [word64, h.le_hdr (by decide), ehdrFor_shoff (by omega)]
  have hphNum : le (readPart bytes 0 ehdrSize) 56 2 = n := by
    rw [h.le_hdr (by decide), ehdrFor_phNum h.count]
  have hshNum : le (readPart bytes 0 ehdrSize) 60 2 = 1 := by
    rw [h.le_hdr (by decide), ehdrFor_shNum]
  have hshstrndx : le (readPart bytes 0 ehdrSize) 62 2 = 0 := by
    rw [h.le_hdr (by decide), ehdrFor_shstrndx]
  have hvalid : elf64Validate (readPart bytes 0 ehdrSize) = true := by
    refine (elf64Validate_congr fun k hk => ?_).trans (ehdrFor_validate tables n)
    rw [readPart_of_lt hk, Nat.zero_add, h.ehdr k hk]
  have hread : ∀ off cnt : ℕ, off + cnt < 2 ^ 31 →
      readExactly (unreadFile bytes loadOffset) (fun _ => 0) (BitVec.ofNat 64 off)
        (BitVec.ofNat 64 cnt) = .ok (some (readPart bytes off cnt)) := by
    intro off cnt hlt
    have hoff : (BitVec.ofNat 64 off).toNat = off :=
      (BitVec.toNat_ofNat off 64).trans (Nat.mod_eq_of_lt (by omega))
    have hcnt : (BitVec.ofNat 64 cnt).toNat = cnt :=
      (BitVec.toNat_ofNat cnt 64).trans (Nat.mod_eq_of_lt (by omega))
    rw [readExactly_unreadFile (by rw [hoff, hcnt]; exact hlt), hoff, hcnt]
  have hhdr := hread 0 ehdrSize (by decide)
  have hshdr := hread (tables + phdrSize * n) shdrSize hfits
  have hphdr := hread tables (phdrSize * n) (by omega)
  have hstrtab := hread 0 0 (by decide)
  have hinit := elf64FileInit_eq hhdr (by rw [hshoff, hshNum, Nat.mul_one]; exact hshdr) hvalid
    (by rw [hphoff, hphNum]; exact hphdr)
    (by rw [hshstrndx, h.word64_shdr (by decide), h.word64_shdr (by decide)]; exact hstrtab)
  refine ⟨_, ⟨_, hinit⟩, rfl, rfl, rfl, hphNum, fun k hk => ?_, hshNum, ?_, ?_⟩
  · exact (readPart_of_lt hk).trans (h.phdrs k hk)
  · exact h.word64_shdr (by decide)
  · exact h.word64_shdr (by decide)

end LaidOut

end Rock

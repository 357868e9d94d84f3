/-
Rock/ElfAccept.lean

Which files `elf64_file_init` accepts (kernel/core/elf.c).

A table of the file is given by a 64-bit offset and a size, and `elf64_read` takes the offset as
an `int`; which reads succeed is in Rock/ElfRead.lean.  So `accepted_iff` gives the files that are
accepted, and `init_exact_iff` says for which files that is the same as being well-formed.

The index of the string table is not compared with the number of sections.  The header that is
used then is whatever the memory behind the table has.
-/
import Rock.ElfRead

namespace Rock

/-! ### The tables of a file -/

/-- A part of the file, as its headers give it. -/
structure Extent where
  offset : Word
  size : Word
  deriving DecidableEq, Repr

/-- The part can be read; it is in the file. -/
def Extent.Readable (e : Extent) (length : ℕ) : Prop := Rock.Readable length e.offset e.size

def Extent.InFile (e : Extent) (length : ℕ) : Prop := e.offset.toNat + e.size.toNat ≤ length

instance (e : Extent) (length : ℕ) : Decidable (e.Readable length) :=
  inferInstanceAs (Decidable (Rock.Readable length e.offset e.size))

instance (e : Extent) (length : ℕ) : Decidable (e.InFile length) :=
  inferInstanceAs (Decidable (_ ≤ _))

/-- The offset is an `int`, and that of an empty part is not behind the end. -/
def Extent.Plain (e : Extent) (length : ℕ) : Prop :=
  e.offset.toNat < 2 ^ 31 ∧ (e.size.toNat = 0 → e.offset.toNat ≤ length)

instance (e : Extent) (length : ℕ) : Decidable (e.Plain length) :=
  inferInstanceAs (Decidable (_ ∧ (_ → _)))

/-- **A part that can be read and is plain** is a part of the file. -/
theorem Extent.inFile_iff (e : Extent) {length : ℕ} (hlen : length < 2 ^ 31) :
    e.InFile length ↔ e.Readable length ∧ e.Plain length := by
  unfold Extent.InFile Extent.Readable Extent.Plain Rock.Readable
  constructor
  · intro hin
    have hoff : e.offset.toNat < 2 ^ 31 := by omega
    rw [intOffset_of_lt hoff]
    omega
  · rintro ⟨⟨hcnt, hends⟩, hoff, hempty⟩
    rw [intOffset_of_lt hoff] at hends
    omega

/-- The section headers and the program headers, for a file with these bytes. -/
def shTable (b : Bytes) : Extent := ⟨word64 b 40, BitVec.ofNat 64 (shdrSize * le b 60 2)⟩

def phTable (b : Bytes) : Extent := ⟨word64 b 32, BitVec.ofNat 64 (phdrSize * le b 56 2)⟩

/-- The string table, for the section headers `shdr`. -/
def strTable (b shdr : Bytes) : Extent :=
  ⟨word64 shdr (shdrSize * le b 62 2 + 24), word64 shdr (shdrSize * le b 62 2 + 32)⟩

/-- The bytes of the file, from its start and from the part `e` on. -/
def fileBytes (image : Image) : Bytes := fun k => image k

def Extent.bytes (e : Extent) (b : Bytes) : Bytes := fun k => b (e.offset.toNat + k)

/-- The buffer that the part was read into. -/
def Extent.readInto (e : Extent) (buf : Bytes) (image : Image) : Bytes :=
  copyIn buf 0 image (intOffset e.offset) e.size.toNat

theorem Extent.readInto_of_lt {e : Extent} {buf : Bytes} {image : Image} {k : ℕ}
    (hoff : e.offset.toNat < 2 ^ 31) (hk : k < e.size.toNat) :
    e.readInto buf image k = e.bytes (fileBytes image) k := by
  have hcopy : e.readInto buf image (0 + k) = image (intOffset e.offset + k) := copyIn_inside hk
  rw [Nat.zero_add, intOffset_of_lt hoff] at hcopy
  rw [hcopy, ← Int.natCast_add]
  rfl

theorem shTable_size (b : Bytes) : (shTable b).size.toNat = shdrSize * le b 60 2 := by
  have hlt : le b 60 2 < 256 ^ 2 := le_lt b 60 2
  show (BitVec.ofNat 64 (shdrSize * le b 60 2)).toNat = _
  rw [BitVec.toNat_ofNat, shdrSize]
  omega

/-- Tables that are the same in the header of the string table have the same string table. -/
theorem strTable_congr {b shdr shdr' : Bytes}
    (h : ∀ k < shdrSize, shdr (shdrSize * le b 62 2 + k) = shdr' (shdrSize * le b 62 2 + k)) :
    strTable b shdr = strTable b shdr' := by
  have hword : ∀ off, off + 8 ≤ shdrSize →
      word64 shdr (shdrSize * le b 62 2 + off) = word64 shdr' (shdrSize * le b 62 2 + off) := by
    intro off hoff
    refine congrArg (BitVec.ofNat 64) (le_congr fun k hlo hhi => ?_)
    have hk := h (k - shdrSize * le b 62 2) (by omega)
    rwa [Nat.add_sub_cancel' (by omega)] at hk
  rw [strTable, strTable, hword 24 (by decide), hword 32 (by decide)]

/-! ### Accepted files -/

section Files

variable {file file' : ElfFile} {image : Image}

/-- The section headers as they are read; behind them is what the memory had. -/
def ElfFile.shdrBuffer (file : ElfFile) (image : Image) : Bytes :=
  (shTable (fileBytes image)).readInto file.shdr image

/-- The checks that are made of a file, with the offsets that are taken as `int`. -/
structure ElfFile.Passes (file : ElfFile) (image : Image) : Prop where
  ehdr : ehdrSize ≤ file.length.toNat
  valid : elf64Validate (fileBytes image) = true
  shdrs : (shTable (fileBytes image)).Readable file.length.toNat
  phdrs : (phTable (fileBytes image)).Readable file.length.toNat
  strtab : (strTable (fileBytes image) (file.shdrBuffer image)).Readable file.length.toNat

/-- The file with its parts. -/
def ElfFile.filled (file : ElfFile) (image : Image) : ElfFile :=
  { file with
    hdr := copyIn file.hdr 0 image 0 ehdrSize
    shdr := file.shdrBuffer image
    phdr := (phTable (fileBytes image)).readInto file.phdr image
    strtab := (strTable (fileBytes image) (file.shdrBuffer image)).readInto file.strtab image }

theorem copyIn_ehdr (hdr : Bytes) {k : ℕ} (hk : k < ehdrSize) :
    copyIn hdr 0 image 0 ehdrSize k = fileBytes image k := by
  have hcopy : copyIn hdr 0 image 0 ehdrSize (0 + k) = image (0 + k) := copyIn_inside hk
  rwa [Nat.zero_add, Int.zero_add] at hcopy

theorem le_copyIn_ehdr (hdr : Bytes) {off n : ℕ} (h : off + n ≤ ehdrSize) :
    le (copyIn hdr 0 image 0 ehdrSize) off n = le (fileBytes image) off n :=
  le_congr fun _ _ hk => copyIn_ehdr hdr (by omega)

theorem readable_ehdr_iff {length : ℕ} (hlen : length < 2 ^ 31) :
    Readable length 0 (BitVec.ofNat 64 ehdrSize) ↔ ehdrSize ≤ length := by
  have hinF := Extent.inFile_iff ⟨0, BitVec.ofNat 64 ehdrSize⟩ hlen
  have hplain : Extent.Plain ⟨0, BitVec.ofNat 64 ehdrSize⟩ length :=
    ⟨by decide, fun _ => Nat.zero_le _⟩
  rw [and_iff_left hplain] at hinF
  refine hinF.symm.trans ?_
  show 0 + ehdrSize ≤ length ↔ _
  rw [Nat.zero_add]

theorem ElfFile.Passes.init (hb : file.buffer = some image) (hlen : file.length.toNat < 2 ^ 31)
    (h : file.Passes image) : elf64FileInit file = .ok (some (file.filled image)) := by
  have hhdr : readExactly file file.hdr 0 (BitVec.ofNat 64 ehdrSize)
      = .ok (some (copyIn file.hdr 0 image 0 ehdrSize)) :=
    (readExactly_iff hb hlen).mpr ⟨(readable_ehdr_iff hlen).mpr h.ehdr, rfl⟩
  have hle : ∀ off n, off + n ≤ ehdrSize →
      le (copyIn file.hdr 0 image 0 ehdrSize) off n = le (fileBytes image) off n :=
    fun off n hn => le_copyIn_ehdr file.hdr hn
  refine elf64FileInit_eq hhdr ?_ ?_ ?_ ?_
  · rw [word64, hle 40 8 (by decide), hle 60 2 (by decide)]
    exact (readExactly_iff hb hlen).mpr ⟨h.shdrs, rfl⟩
  · exact (elf64Validate_congr fun k hk => copyIn_ehdr file.hdr hk).trans h.valid
  · rw [word64, hle 32 8 (by decide), hle 56 2 (by decide)]
    exact (readExactly_iff hb hlen).mpr ⟨h.phdrs, rfl⟩
  · rw [hle 62 2 (by decide)]
    exact (readExactly_iff hb hlen).mpr ⟨h.strtab, rfl⟩

theorem passes_of_init (hb : file.buffer = some image) (hlen : file.length.toNat < 2 ^ 31)
    (h : elf64FileInit file = .ok (some file')) : file.Passes image := by
  obtain ⟨hhdr, hshdr, hvalid, hphdr, hstrtab, -⟩ := elf64FileInit_cases h
  obtain ⟨hehdr, hhdr'⟩ := (readExactly_iff hb hlen).mp hhdr
  have hhdr' : file'.hdr = copyIn file.hdr 0 image 0 ehdrSize := hhdr'
  have hle : ∀ off n, off + n ≤ ehdrSize →
      le file'.hdr off n = le (fileBytes image) off n :=
    fun off n hn => hhdr' ▸ le_copyIn_ehdr file.hdr hn
  rw [ElfFile.shoff, ElfFile.shNum, word64, hle 40 8 (by decide), hle 60 2 (by decide)] at hshdr
  rw [ElfFile.phoff, ElfFile.phNum, word64, hle 32 8 (by decide), hle 56 2 (by decide)] at hphdr
  obtain ⟨hshR, hsh⟩ := (readExactly_iff hb hlen).mp hshdr
  have hsh : file'.shdr = file.shdrBuffer image := hsh
  rw [ElfFile.shstrndx, hle 62 2 (by decide)] at hstrtab
  refine ⟨(readable_ehdr_iff hlen).mp hehdr, ?_, hshR, ((readExactly_iff hb hlen).mp hphdr).1, ?_⟩
  · refine (elf64Validate_congr fun k hk => ?_).trans hvalid
    rw [hhdr', copyIn_ehdr file.hdr hk]
  · rw [← hsh]
    exact ((readExactly_iff hb hlen).mp hstrtab).1

/-- **Which files are accepted**, and what is then in the buffers. -/
theorem accepted_iff (hb : file.buffer = some image) (hlen : file.length.toNat < 2 ^ 31) :
    elf64FileInit file = .ok (some file') ↔ file.Passes image ∧ file' = file.filled image := by
  constructor
  · intro h
    have hpass := passes_of_init hb hlen h
    exact ⟨hpass, Option.some.inj (Except.ok.inj (h.symm.trans (hpass.init hb hlen)))⟩
  · rintro ⟨hpass, rfl⟩
    exact hpass.init hb hlen

/-! ### Well-formed files -/

/-- **The file is well-formed**: its header is there and valid, its tables and the string table
are in the file, and the string table is one of its sections. -/
structure WellFormed (b : Bytes) (length : ℕ) : Prop where
  ehdr : ehdrSize ≤ length
  valid : elf64Validate b = true
  shdrs : (shTable b).InFile length
  phdrs : (phTable b).InFile length
  shstrndx : le b 62 2 < le b 60 2
  strtab : (strTable b ((shTable b).bytes b)).InFile length

/-- The buffers have the bytes of the parts. -/
structure ElfFile.HasTables (file : ElfFile) (b : Bytes) : Prop where
  shdr : ∀ k < (shTable b).size.toNat, file.shdr k = (shTable b).bytes b k
  phdr : ∀ k < (phTable b).size.toNat, file.phdr k = (phTable b).bytes b k
  strtab : ∀ k < (strTable b ((shTable b).bytes b)).size.toNat,
    file.strtab k = (strTable b ((shTable b).bytes b)).bytes b k

/-- **What `elf64_file_init` is to do.** -/
def ElfFile.InitExact (file : ElfFile) (image : Image) : Prop :=
  ((∃ file', elf64FileInit file = .ok (some file')) ↔
      WellFormed (fileBytes image) file.length.toNat) ∧
    ∀ file', elf64FileInit file = .ok (some file') → file'.HasTables (fileBytes image)

/-- The string table is one of the sections, and the offsets of all parts are plain. -/
structure ElfFile.Straight (file : ElfFile) (image : Image) : Prop where
  shstrndx : le (fileBytes image) 62 2 < le (fileBytes image) 60 2
  shdrs : (shTable (fileBytes image)).Plain file.length.toNat
  phdrs : (phTable (fileBytes image)).Plain file.length.toNat
  strtab : (strTable (fileBytes image) (file.shdrBuffer image)).Plain file.length.toNat

/-- The header of the string table that is read is that of the file. -/
theorem strTable_shdrBuffer (hindex : le (fileBytes image) 62 2 < le (fileBytes image) 60 2)
    (hoff : (shTable (fileBytes image)).offset.toNat < 2 ^ 31) :
    strTable (fileBytes image) (file.shdrBuffer image)
      = strTable (fileBytes image) ((shTable (fileBytes image)).bytes (fileBytes image)) := by
  refine strTable_congr fun k hk => Extent.readInto_of_lt hoff ?_
  -- the header is one of those that were read, and not of the memory behind them
  rw [shTable_size]
  have hend := Nat.mul_le_mul_left shdrSize hindex
  rw [Nat.succ_eq_add_one, Nat.mul_add, Nat.mul_one] at hend
  omega

/-- **A file that passes and is straight is well-formed**, and the other way round. -/
theorem wellFormed_iff (hlen : file.length.toNat < 2 ^ 31) :
    WellFormed (fileBytes image) file.length.toNat ↔ file.Passes image ∧ file.Straight image := by
  constructor
  · rintro ⟨hehdr, hvalid, hsh, hph, hindex, hstr⟩
    obtain ⟨hshR, hshP⟩ := (Extent.inFile_iff _ hlen).mp hsh
    obtain ⟨hphR, hphP⟩ := (Extent.inFile_iff _ hlen).mp hph
    have hsame : strTable (fileBytes image) (file.shdrBuffer image) = _ :=
      strTable_shdrBuffer hindex hshP.1
    rw [← hsame] at hstr
    obtain ⟨hstrR, hstrP⟩ := (Extent.inFile_iff _ hlen).mp hstr
    exact ⟨⟨hehdr, hvalid, hshR, hphR, hstrR⟩, hindex, hshP, hphP, hstrP⟩
  · rintro ⟨⟨hehdr, hvalid, hshR, hphR, hstrR⟩, hindex, hshP, hphP, hstrP⟩
    refine ⟨hehdr, hvalid, (Extent.inFile_iff _ hlen).mpr ⟨hshR, hshP⟩,
      (Extent.inFile_iff _ hlen).mpr ⟨hphR, hphP⟩, hindex, ?_⟩
    have hstr := (Extent.inFile_iff _ hlen).mpr ⟨hstrR, hstrP⟩
    rwa [strTable_shdrBuffer hindex hshP.1] at hstr

theorem ElfFile.Straight.hasTables (h : file.Straight image) :
    (file.filled image).HasTables (fileBytes image) := by
  have hoff := h.strtab.1
  unfold ElfFile.filled
  constructor <;> dsimp only
  case shdr =>
    intro k hk
    exact Extent.readInto_of_lt h.shdrs.1 hk
  case phdr =>
    intro k hk
    exact Extent.readInto_of_lt h.phdrs.1 hk
  case strtab =>
    rw [strTable_shdrBuffer h.shstrndx h.shdrs.1] at hoff ⊢
    intro k hk
    exact Extent.readInto_of_lt hoff hk

/-- **When the accepted files are the well-formed ones**: a file is judged rightly exactly if it
does not pass the checks, or its string table is one of its sections and its offsets are
plain. -/
theorem init_exact_iff (hb : file.buffer = some image) (hlen : file.length.toNat < 2 ^ 31) :
    file.InitExact image ↔ (file.Passes image → file.Straight image) := by
  have haccepts : (∃ file', elf64FileInit file = .ok (some file')) ↔ file.Passes image :=
    ⟨fun ⟨_, h⟩ => passes_of_init hb hlen h, fun h => ⟨_, h.init hb hlen⟩⟩
  unfold ElfFile.InitExact
  rw [haccepts, wellFormed_iff hlen]
  constructor
  · rintro ⟨hexact, -⟩ hpass
    exact (hexact.mp hpass).2
  · intro hstraight
    refine ⟨⟨fun hpass => ⟨hpass, hstraight hpass⟩, And.left⟩, fun file' h => ?_⟩
    obtain ⟨hpass, rfl⟩ := (accepted_iff hb hlen).mp h
    exact (hstraight hpass).hasTables

end Files

/-- A file of 128 bytes without program headers, whose header says that one section header is at
`shoff`. -/
def smallFile (shoff : ℕ) : ElfFile :=
  { unreadFile (putLe (ehdrFor 64 0) 40 8 shoff) 0 with length := 128 }

/-- The memory that the file is in. -/
def smallImage (shoff : ℕ) : Image := fun z => putLe (ehdrFor 64 0) 40 8 shoff z.toNat

/-- With its section header at 64 the file is judged rightly. -/
theorem init_exact_small :
    (∃ file', elf64FileInit (smallFile 64) = .ok (some file')) ∧
      WellFormed (fileBytes (smallImage 64)) 128 ∧ (smallFile 64).InitExact (smallImage 64) := by
  have hpass : (smallFile 64).Passes (smallImage 64) := by
    constructor <;> decide +kernel
  have hstraight : (smallFile 64).Straight (smallImage 64) := by
    constructor <;> decide +kernel
  have hlen : (smallFile 64).length.toNat < 2 ^ 31 := by decide
  exact ⟨⟨_, hpass.init rfl hlen⟩, (wellFormed_iff hlen).mpr ⟨hpass, hstraight⟩,
    (init_exact_iff rfl hlen).mpr fun _ => hstraight⟩

/-- **A file that is not well-formed is accepted.**  Its section header is said to be at
`2 ^ 32 + 64`, and is read from 64. -/
theorem init_accepts_malformed :
    (∃ file', elf64FileInit (smallFile (2 ^ 32 + 64)) = .ok (some file')) ∧
      ¬ WellFormed (fileBytes (smallImage (2 ^ 32 + 64))) 128 ∧
      ¬ (smallFile (2 ^ 32 + 64)).InitExact (smallImage (2 ^ 32 + 64)) := by
  have hpass : (smallFile (2 ^ 32 + 64)).Passes (smallImage (2 ^ 32 + 64)) := by
    constructor <;> decide +kernel
  have hlen : (smallFile (2 ^ 32 + 64)).length.toNat < 2 ^ 31 := by decide
  have hinit := hpass.init rfl hlen
  have hmalformed : ¬ WellFormed (fileBytes (smallImage (2 ^ 32 + 64))) 128 := by
    intro hwell
    exact absurd hwell.shdrs (by decide +kernel)
  exact ⟨⟨_, hinit⟩, hmalformed, fun hexact => hmalformed (hexact.1.mp ⟨_, hinit⟩)⟩

end Rock

import Mathlib.Algebra.GroupWithZero.Nat
import Mathlib.Logic.Function.Basic

/-! # Constants and on-disk formats

The constants of `param.h`, `fs.h`, `tx.h`, `stat.h` and `fcntl.h`, and the byte
layouts that the file system reads through pointer casts: the dinode (which has the
layout of the in-memory `struct inode_data`), the directory entry, the entries of an
indirect block, the log header and the bits of the free map.
-/
namespace Txv6

abbrev UChar := BitVec 8
abbrev Short := BitVec 16
abbrev Uint := BitVec 32

abbrev nofile : Nat := 16
abbrev nfile : Nat := 100
abbrev ninode : Nat := 50
abbrev ndev : Nat := 10
abbrev rootdev : Nat := 1
abbrev maxopblocks : Nat := 10
abbrev logblocks : Nat := maxopblocks * 3
abbrev nbuf : Nat := maxopblocks * 3

abbrev rootino : Nat := 1
abbrev bsize : Nat := 1024
abbrev ndirect : Nat := 12
abbrev nindirect : Nat := bsize / 4
abbrev maxfile : Nat := ndirect + nindirect
abbrev dinodeSize : Nat := 64
abbrev ipb : Nat := bsize / dinodeSize
abbrev bpb : Nat := bsize * 8
abbrev dirsiz : Nat := 14
abbrev direntSize : Nat := 16

abbrev maxWorkset : Nat := 16

-- the tables with an entry that is written `0`
instance : NeZero nfile := ⟨by decide⟩
instance : NeZero ninode := ⟨by decide⟩
instance (priority := 2000) : NeZero (ndirect + 1) := ⟨by decide⟩

def tDir : Short := 1
def tFile : Short := 2
def tDevice : Short := 3

abbrev oRdonly : Nat := 0x000
abbrev oWronly : Nat := 0x001
abbrev oRdwr : Nat := 0x002
abbrev oCreate : Nat := 0x200
abbrev oTrunc : Nat := 0x400

/-- The contents of one block. Only the first `bsize` bytes are ever addressed. -/
abbrev Block := Nat → UChar

structure Superblock where
  size : Nat
  nblocks : Nat
  ninodes : Nat
  nlog : Nat
  logstart : Nat
  inodestart : Nat
  bmapstart : Nat

/-- `IBLOCK`: the block that holds inode `i`. -/
def Superblock.iblock (sb : Superblock) (i : Nat) : Nat := i / ipb + sb.inodestart

/-- `BBLOCK`: the free map block that holds the bit of block `b`. -/
def Superblock.bblock (sb : Superblock) (b : Nat) : Nat := b / bpb + sb.bmapstart

/-! ## Little-endian fields -/

def le16 (b : Block) (o : Nat) : Short := b (o + 1) ++ b o
def le32 (b : Block) (o : Nat) : Uint := b (o + 3) ++ b (o + 2) ++ b (o + 1) ++ b o

/-- Byte `k` of a value stored in memory. -/
def byteOf {w : Nat} (x : BitVec w) (k : Nat) : UChar := x.extractLsb' (8 * k) 8

/-- Store bytes at an offset of a block. -/
def putBytes (b : Block) (o : Nat) (bs : List UChar) : Block := fun i =>
  if o ≤ i ∧ i < o + bs.length then bs.getD (i - o) 0 else b i

def getBytes (b : Block) (o n : Nat) : List UChar := (List.range n).map fun i => b (o + i)

def put32 (b : Block) (o : Nat) (x : Uint) : Block :=
  putBytes b o [byteOf x 0, byteOf x 1, byteOf x 2, byteOf x 3]

/-! ## Inodes -/

/-- `struct inode_data`, which has the fields of `struct dinode`. -/
@[ext] structure InodeData where
  type : Short
  major : Short
  minor : Short
  nlink : Short
  size : Uint
  addrs : Fin (ndirect + 1) → Uint

/-- The dinode at byte `o` of a block. -/
def dinodeAt (b : Block) (o : Nat) : InodeData where
  type := le16 b o
  major := le16 b (o + 2)
  minor := le16 b (o + 4)
  nlink := le16 b (o + 6)
  size := le32 b (o + 8)
  addrs i := le32 b (o + 12 + 4 * i)

/-- The bytes of a dinode in memory order. -/
def InodeData.bytes (d : InodeData) : List UChar :=
  [byteOf d.type 0, byteOf d.type 1, byteOf d.major 0, byteOf d.major 1,
    byteOf d.minor 0, byteOf d.minor 1, byteOf d.nlink 0, byteOf d.nlink 1,
    byteOf d.size 0, byteOf d.size 1, byteOf d.size 2, byteOf d.size 3] ++
  (List.finRange (ndirect + 1)).flatMap fun i =>
    [byteOf (d.addrs i) 0, byteOf (d.addrs i) 1, byteOf (d.addrs i) 2, byteOf (d.addrs i) 3]

/-- Byte offset of inode `inum` in its block. -/
def dinodeOff (inum : Nat) : Nat := inum % ipb * dinodeSize

def InodeData.zero : InodeData := ⟨0, 0, 0, 0, 0, fun _ => 0⟩

/-! ## Directory entries and names -/

abbrev Name := List UChar
abbrev Path := List UChar

structure Dirent where
  inum : Nat
  name : Name

def Dirent.ofBytes (bs : List UChar) : Dirent where
  inum := (bs.getD 1 0 ++ bs.getD 0 0).toNat
  name := bs.drop 2

def Dirent.bytes (de : Dirent) : List UChar :=
  [byteOf (BitVec.ofNat 16 de.inum) 0, byteOf (BitVec.ofNat 16 de.inum) 1] ++ de.name

/-- `strncmp` on strings that are zero from the end of the list on. -/
def strncmp : Name → Name → Nat → Int
  | _, _, 0 => 0
  | p, q, n + 1 =>
    if p.headD 0 ≠ 0 ∧ p.headD 0 = q.headD 0 then strncmp p.tail q.tail n
    else (p.headD 0).toNat - (q.headD 0).toNat

/-- `strncpy`: copies up to the first zero and pads with zeros to `n` bytes. -/
def strncpy : Name → Nat → Name
  | _, 0 => []
  | [], n + 1 => 0 :: strncpy [] n
  | c :: t, n + 1 => if c = 0 then 0 :: strncpy [] n else c :: strncpy t n

def namecmp (s t : Name) : Int := strncmp s t dirsiz

def slash : UChar := 0x2f

/-- `skipelem`: the next path element, cut to `dirsiz` bytes, and what follows it. -/
def skipelem (path : Path) : Option (Path × Name) :=
  match path.dropWhile (· == slash) with
  | [] => none
  | s => some ((s.dropWhile (· != slash)).dropWhile (· == slash),
      (s.takeWhile (· != slash)).take dirsiz)

theorem skipelem_length {path rest : Path} {name : Name} (h : skipelem path = some (rest, name)) :
    rest.length < path.length := by
  unfold skipelem at h
  have hle := (List.dropWhile_suffix (l := path) (· == slash)).length_le
  split at h
  · cases h
  next c hne =>
    cases h
    match hc : path.dropWhile (· == slash) with
    | [] => exact absurd hc hne
    | x :: tail =>
      have hx : (x == slash) = false := by
        have := List.head?_dropWhile_not (· == slash) path
        simpa [hc] using this
      have h1 := (List.dropWhile_suffix (l := (x :: tail).dropWhile (· != slash)) (· == slash)).length_le
      have h2 : (x :: tail).dropWhile (· != slash) = tail.dropWhile (· != slash) := by
        simp [bne, hx]
      have h3 := (List.dropWhile_suffix (l := tail) (· != slash)).length_le
      rw [hc, List.length_cons] at hle
      rw [h2] at h1 ⊢
      omega

/-! ## The log header and the free map -/

/-- The block numbers recorded in a log header block. -/
def logheaderAt (b : Block) : List Nat :=
  (List.range (le32 b 0).toInt.toNat).map fun i => (le32 b (4 + 4 * i)).toNat

/-- Store `n` and the first `n` block numbers, leaving the rest of the block. -/
def putLogheader (b : Block) (lh : List Nat) : Block :=
  (lh.zipIdx).foldl (fun b e => put32 b (4 + 4 * e.2) (BitVec.ofNat 32 e.1))
    (put32 b 0 (BitVec.ofNat 32 lh.length))

/-- Bit `bi` of a free map block. -/
def bitAt (b : Block) (bi : Nat) : Bool := (b (bi / 8)).getLsbD (bi % 8)

def setBit (b : Block) (bi : Nat) : Block :=
  Function.update b (bi / 8) (b (bi / 8) ||| (1#8 <<< (bi % 8)))

def clearBit (b : Block) (bi : Nat) : Block :=
  Function.update b (bi / 8) (b (bi / 8) &&& ~~~(1#8 <<< (bi % 8)))

end Txv6

import Xv6.Lib.Bytes

/-! The constants of `param.h`, `fs.h` and `fcntl.h`, the size of a page, and the blocks of the disk. -/

namespace Xv6
open Lib

def NPROC : Nat := 64

instance : NeZero NPROC := ⟨Nat.succ_ne_zero 63⟩

def NCPU : Nat := 8
def NOFILE : Nat := 16
def NFILE : Nat := 100
def NINODE : Nat := 50
def NDEV : Nat := 10
def ROOTDEV : Nat := 1
def MAXARG : Nat := 32
def MAXOPBLOCKS : Nat := 10
def LOGSIZE : Nat := MAXOPBLOCKS * 3
def NBUF : Nat := MAXOPBLOCKS * 3
def FSSIZE : Nat := 1000

def PGSIZE : Nat := 4096

def ROOTINO : Nat := 1
def BSIZE : Nat := 512
def NDIRECT : Nat := 12
def NINDIRECT : Nat := BSIZE / 4
def MAXFILE : Nat := NDIRECT + NINDIRECT
def IPB : Nat := BSIZE / 64
def BPB : Nat := BSIZE * 8
def DIRSIZ : Nat := 14

def O_RDONLY : Nat := 0x000
def O_WRONLY : Nat := 0x001
def O_RDWR : Nat := 0x002
def O_CREATE : Nat := 0x200

abbrev Block := Bytes BSIZE

instance : Inhabited Block := ⟨Bytes.zero⟩

end Xv6

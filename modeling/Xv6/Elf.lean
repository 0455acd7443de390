import Mathlib.Data.List.Basic
import Xv6.Param

/-! `elf.h`: the headers of an executable, as `exec` reads them. -/

namespace Xv6

def ELF_MAGIC : Nat := 0x464C457F
def ELF_PROG_LOAD : Nat := 1

def ushortAt (bytes : List UInt8) (off : Nat) : Nat := (bytes.getD off 0).toNat + 256 * (bytes.getD (off + 1) 0).toNat

def uintAt (bytes : List UInt8) (off : Nat) : Nat := ushortAt bytes off + 65536 * ushortAt bytes (off + 2)

structure Elfhdr where
  magic : Nat
  entry : Nat
  phoff : Nat
  phnum : Nat

structure Proghdr where
  type : Nat
  off : Nat
  vaddr : Nat
  filesz : Nat
  memsz : Nat

-- `sizeof(elf)` and `sizeof(ph)`
def ELFHDR : Nat := 52
def PROGHDR : Nat := 32

def Elfhdr.ofBytes (bytes : List UInt8) : Elfhdr where
  magic := uintAt bytes 0
  entry := uintAt bytes 24
  phoff := uintAt bytes 28
  phnum := ushortAt bytes 44

def Proghdr.ofBytes (bytes : List UInt8) : Proghdr where
  type := uintAt bytes 0
  off := uintAt bytes 4
  vaddr := uintAt bytes 8
  filesz := uintAt bytes 16
  memsz := uintAt bytes 20

end Xv6

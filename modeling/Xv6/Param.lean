/-
  Xv6.Param — the constants the models share (`kernel/param.h`, `kernel/fs.h`,
  `kernel/stat.h`, `kernel/fcntl.h`).
-/

namespace Xv6

/-! ## kernel/param.h -/

def NPROC : Nat := 64
def NOFILE : Nat := 16
def NFILE : Nat := 100
def NINODE : Nat := 50
def NDEV : Nat := 10
def ROOTDEV : Nat := 1
def MAXOPBLOCKS : Nat := 10
def LOGBLOCKS : Nat := MAXOPBLOCKS * 3
def NBUF : Nat := MAXOPBLOCKS * 3
def MAXPATH : Nat := 128

/-! ## kernel/fs.h -/

def ROOTINO : Nat := 1
def BSIZE : Nat := 1024
def NDIRECT : Nat := 12
def NINDIRECT : Nat := BSIZE / 4
def MAXFILE : Nat := NDIRECT + NINDIRECT
/-- Inodes per block: `sizeof(struct dinode)` is 64. -/
def IPB : Nat := BSIZE / 64
/-- Bitmap bits per block. -/
def BPB : Nat := BSIZE * 8
def DIRSIZ : Nat := 14

/-! ## kernel/riscv.h -/

def PGSIZE : Nat := 4096

/-! ## kernel/stat.h -/

def T_DIR : Int16 := 1
def T_FILE : Int16 := 2
def T_DEVICE : Int16 := 3

/-! ## kernel/fcntl.h -/

def O_RDONLY : Nat := 0x000
def O_WRONLY : Nat := 0x001
def O_RDWR : Nat := 0x002
def O_CREATE : Nat := 0x200
def O_TRUNC : Nat := 0x400

end Xv6

/-
# Omemfs.Work.Write — what the commands write into a working tree.

An entry of a tree is written as the file or symlink it is, or as the record of a stub: beside the name
of a file, inside a directory.  What a scan makes of each is the entry again.
-/
import Omemfs.Scan.Still
import Omemfs.Sync.Fsguard

namespace Omemfs.Work

open Lib Scan Fsguard

/-- What the machine adds to what is written. -/
structure Machine where
  now : Time
  /-- the stub record that a file of this hash is read as -/
  parse : Hash → Option StubRecord
  /-- a stub record as a file -/
  textHash : StubRecord → Hash
  textSize : StubRecord → Nat

/-- A blob as a file.  The execute bits are set or cleared as a whole, and a scan reads the owner's. -/
def Machine.file (mach : Machine) (b : Blob) : DiskLeaf :=
  .file ⟨b.hash, mach.parse b.hash⟩ ⟨some (b.mtime.getD mach.now), b.size, b.mode.map fun _ => "755"⟩

def Machine.link (mach : Machine) (l : Symlink) : DiskLeaf :=
  .symlink l.target (some (l.mtime.getD mach.now))

def Machine.stubFile (mach : Machine) (r : StubRecord) : DiskLeaf :=
  .file ⟨mach.textHash r, some r⟩ ⟨some mach.now, mach.textSize r, none⟩

/-- The record of a stubbed file. -/
def blobRecord (b : Blob) : StubRecord := ⟨.blob b.hash, b.size, b.mtime, b.mode, 0⟩

/-- The record of a stubbed directory. -/
def treeRecord (t : Tree) (m : TreeMeta) : StubRecord := ⟨.tree t, m.size, m.mtime, none, m.blobCount⟩

/-! ## What a scan makes of it -/

theorem kindNode_file (mach : Machine) {b : Blob} (hmode : b.mode = none ∨ b.mode = some "755") :
    kindNode (.leaf (mach.file b)) = some (entryNode (.blob b)) := by
  rcases hmode with h | h <;> simp [kindNode, Machine.file, entryNode, h]

theorem kindNode_link (mach : Machine) (l : Symlink) :
    kindNode (.leaf (mach.link l)) = some (entryNode (.symlink l)) := rfl

theorem recordIn_stubFile (mach : Machine) (r : StubRecord) :
    recordIn (some (.leaf (mach.stubFile r))) = some r := rfl

theorem entryNode_blobRecord (treeHash : Tree → Hash) (b : Blob) :
    entryNode (.blob ((blobRecord b).blob treeHash)) = entryNode (.blob b) := rfl

end Omemfs.Work

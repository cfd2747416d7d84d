/-
# Omemfs.Tree — tree objects.

A tree object lists named entries: blobs, subtrees and symlinks.  The program names a subtree by the
hash of its serialised entries; here the subtree stands in that place itself, so two trees are equal
exactly when the program gives them one hash.  The list of entries is written out in the
constructors of `Tree`, which makes functions on trees plain recursions.
-/
import Omemfs.Object

namespace Omemfs

/-- Nanoseconds since the Unix epoch. -/
abbrev Time := Int

structure Blob where
  hash : Hash
  mtime : Option Time
  size : Nat
  mode : Option String
  deriving DecidableEq

/-- What an entry records of the subtree it names. -/
structure TreeMeta where
  mtime : Option Time
  size : Nat
  blobCount : Nat
  deriving DecidableEq

structure Symlink where
  target : String
  mtime : Option Time
  deriving DecidableEq

/-- The entries of a tree object, first entry first. -/
inductive Tree where
  | nil
  | blob (name : String) (b : Blob) (rest : Tree)
  | tree (name : String) (t : Tree) (m : TreeMeta) (rest : Tree)
  | symlink (name : String) (l : Symlink) (rest : Tree)
  deriving DecidableEq

/-- One entry, without its name. -/
inductive TreeEntry where
  | blob (b : Blob)
  | tree (t : Tree) (m : TreeMeta)
  | symlink (l : Symlink)
  deriving DecidableEq

end Omemfs

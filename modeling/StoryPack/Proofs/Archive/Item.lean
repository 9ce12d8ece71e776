/-
What is put into archives.

An archive is written from a list of items: regular files, directories and
symbolic links.  Both kinds of archives can hold each of them.

* `Item.file?` — the member that a reader finds who takes regular files only;
* `Item.followed` — the item in which a link is the file that holds its target.
-/
import StoryPack.Archive.Member

namespace StoryPack

/-- What an item is. -/
inductive Item.Kind where
  | file (data : ByteArray)
  | directory
  | link (target : String)

/-- Something to be put into an archive. -/
structure Item where
  name : String
  kind : Item.Kind

namespace Item

/-- The member that a regular file becomes. -/
def file? (it : Item) : Option Member :=
  match it.kind with
  | .file data => some ⟨normalize it.name, data.size, ⟨data, true⟩⟩
  | .directory | .link _ => none

/-- The same item, but with its target in a file in place of a link. -/
def followed (it : Item) : Item :=
  match it.kind with
  | .link target => { it with kind := .file target.toUTF8 }
  | .file _ | .directory => it

/-- Whether an item is a link. -/
def isLink (it : Item) : Bool :=
  match it.kind with
  | .link _ => true
  | .file _ | .directory => false

theorem followed_of_not_isLink {it : Item} (h : it.isLink = false) : it.followed = it := by
  obtain ⟨name, kind⟩ := it
  cases kind with
  | link target => cases h
  | file data => rfl
  | directory => rfl

end Item

end StoryPack

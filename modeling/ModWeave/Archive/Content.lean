import ModWeave.Archive.Format

/-!
What files hold. A container is known by the members that unpacking it yields, in order, so that whatever
looks into nested containers recurses on the data.

Members come in blocks. Whoever goes through a container may refuse to go on at any member, and is then given no
more of that block; the next block is begun all the same. How members are parted into blocks is up to the
unpacking: where it ends at the first refusal, a container has one block. The bytes of a member are the same
whether those before it have been read or not.
-/
namespace ModWeave

mutual

/-- What a file holds: bytes, and if they are a container, its members. -/
inductive Content where
  | plain (bytes : ByteArray)
  | packed (format : Format) (bytes : ByteArray) (blocks : List (List Member))
  /-- A container that names more members than it has. -/
  | contradictory (format : Format) (bytes : ByteArray)

/-- A member of a container. Its size is what the container states. -/
inductive Member where
  /-- A file, or a folder's own record. -/
  | intact (name : String) (isFolder : Bool) (size : Nat) (content : Content)
  /-- A member whose bytes do not match what the container states about them. -/
  | damaged (name : String) (isFolder : Bool) (size : Nat)
  /-- A member that the format lists but that cannot be opened. Nothing is unpacked behind it. -/
  | unreadable (name : String)
  /-- A member with an encryption of which the container says elsewhere that there is none. -/
  | contradictory (name : String)

end

namespace Content

def empty : Content := plain .empty

instance : Inhabited Content := ⟨empty⟩

/-- The bytes of a file. -/
def bytes : Content → ByteArray
  | plain bytes => bytes
  | packed _ bytes _ => bytes
  | contradictory _ bytes => bytes

def size (c : Content) : Nat := c.bytes.size

/-- The text of a file, if it is UTF-8. -/
def text? (c : Content) : Option (List Char) :=
  (String.fromUTF8? c.bytes).map String.toList

def ofText (text : String) : Content := plain text.toUTF8

end Content

namespace Member

def name : Member → String
  | intact name .. | damaged name .. | unreadable name | contradictory name => name

def isFolder : Member → Bool
  | intact _ isFolder .. | damaged _ isFolder _ => isFolder
  | unreadable _ | contradictory _ => false

def isUnreadable : Member → Bool
  | unreadable _ => true
  | _ => false

/-- The size that the container states, if it states one. -/
def size : Member → Nat
  | intact _ _ size _ | damaged _ _ size => size
  | unreadable _ | contradictory _ => 0

end Member
end ModWeave

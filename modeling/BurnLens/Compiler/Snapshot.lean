import BurnLens.Compiler.Process
import BurnLens.Text.Digest

/-! # Snapshots

The text of a document is handed to the compiler in a temporary file. Its name carries a digest of
the URI and the text, and a part of the host's choosing, so that two checks of one text do not meet.
The file is gone when the check ends. -/

namespace BurnLens

structure Snapshot where
  name : String
  content : List UInt8
  deriving DecidableEq, Repr

namespace Snapshot

/-- The first twelve digits of the digest of a URI and a text. -/
def digest (uri text : String) : String :=
  let octets := Text.Utf8.encode (uri.toList ++ Char.ofNat 0 :: text.toList)
  String.ofList ((Text.Digest.hex (Text.Digest.md5 octets)).take 12)

/-- The octets of a temporary name before its extension: `burn-`, twelve digits, a dash and eight
characters of the host's choosing. -/
def stemLength : Nat := 26

/-- Whether the host can make a file with this extension. -/
def possible (h : Host) (extension : String) : Bool :=
  h.hasTemporary && !extension.toList.contains '/' &&
    stemLength + (Text.Utf8.encode extension.toList).length ≤ FileSystem.nameLimit

/-- The snapshot of a text. -/
def take (h : Host) (text uri extension : String) : Except CompilerFault Snapshot :=
  if Host.hasNull extension then .error .embeddedNull
  else if possible h extension then
    .ok ⟨"burn-" ++ digest uri text ++ "-" ++ h.salt ++ extension, Text.Utf8.encode text.toList⟩
  else .error .snapshot

end Snapshot

end BurnLens

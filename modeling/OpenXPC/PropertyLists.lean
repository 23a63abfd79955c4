import Mathlib.Data.List.TakeWhile
import OpenXPC.Objects

/-! # Property lists

The Foundation values that a property list is made of. The entries of a dictionary
are listed in the order in which Foundation enumerates them. -/
namespace OpenXPC

/-- A string is its UTF-8 form, in which U+0000 may occur. -/
structure NSString where
  utf8 : List UInt8
  deriving DecidableEq

/-- A reader of the C string stops at the first U+0000. -/
def NSString.utf8String (s : NSString) : CString where
  bytes := s.utf8.takeWhile (· ≠ 0)
  noNul hmem := by simpa using List.mem_takeWhile_imp hmem

/-- An Objective-C string literal of ASCII characters. -/
def NSString.literal (s : String) : NSString := ⟨s.toList.map (fun c => UInt8.ofNat c.toNat)⟩

/-- A number under the encoding that `objCType` gives for it. -/
inductive NSNumber
  | bool (value : Bool)
  | unsignedLong (value : UInt64)
  | long (value : Int64)
  | double (bits : UInt64)
  | other (objCType : CString)
  deriving DecidableEq

/-- The dates of a property list are never read. -/
inductive NSObject
  | string (s : NSString)
  | data (bytes : List UInt8)
  | fileHandle (fileDescriptor : ℕ)
  | number (n : NSNumber)
  | date
  | array (objects : List NSObject)
  | dictionary (entries : List (NSString × NSObject))

abbrev Entries := List (NSString × NSObject)

/-- Where Objective-C code ends early. -/
inductive Stop
  | unrecognizedSelector  -- a message is sent to an object without the method
  | mutated               -- Foundation notices a change of what it enumerates
  | fault (f : Fault)
  deriving DecidableEq

namespace NSObject

mutual

/-- Every object has a conversion, and the keys of every dictionary are distinct as
C strings. -/
def Supported : NSObject → Prop
  | .number (.other _) => False
  | .date => False
  | .array objects => SupportedObjects objects
  | .dictionary entries => (entries.map (fun e => e.1.utf8String)).Nodup ∧ SupportedEntries entries
  | _ => True

def SupportedObjects : List NSObject → Prop
  | [] => True
  | v :: vs => Supported v ∧ SupportedObjects vs

def SupportedEntries : List (NSString × NSObject) → Prop
  | [] => True
  | (_, v) :: es => Supported v ∧ SupportedEntries es

end

end NSObject
end OpenXPC

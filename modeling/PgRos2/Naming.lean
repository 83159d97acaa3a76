import Mathlib.Data.List.Basic

/-!
# Names of topics

`naming.rs`: the check of a fully qualified ROS name, on the bytes of each segment.
-/

namespace PgRos2

def isAsciiAlphabetic (byte : UInt8) : Bool :=
  ('A'.toUInt8 ≤ byte && byte ≤ 'Z'.toUInt8) || ('a'.toUInt8 ≤ byte && byte ≤ 'z'.toUInt8)

def isAsciiAlphanumeric (byte : UInt8) : Bool :=
  isAsciiAlphabetic byte || ('0'.toUInt8 ≤ byte && byte ≤ '9'.toUInt8)

/-- The bytes of a segment start with a letter or underscore, and go on with those and digits. -/
def isSegment : List UInt8 → Bool
  | [] => false
  | byte :: bytes => (isAsciiAlphabetic byte || byte == '_'.toUInt8)
    && bytes.all fun byte => isAsciiAlphanumeric byte || byte == '_'.toUInt8

/-- Check that `name` is a fully qualified ROS name with valid segments. -/
def validateTopic (name : String) : Except String Unit :=
  match name.toList with
  | '/' :: relative =>
    if (relative.splitOn '/').any fun part => !isSegment (part.flatMap String.utf8EncodeChar) then
      .error ("topic must contain nonempty ROS name segments (letters, digits, underscores; "
        ++ "no leading digits)")
    else .ok ()
  | _ => .error "topic must be a fully qualified ROS name starting with '/'"

example : (validateTopic "/robot_1/joint_states").isOk && !(validateTopic "/0digit").isOk := by
  decide +kernel

end PgRos2

import AlaphiOS.Lib.Bytes
import AlaphiOS.Lib.Maps

/-!
# The password table

`AuthDb` of `kernel/src/fs/overlay.rs` (the permission table of that file is in
`AlaphiOS.Fs.Vfs`). SHA-256 is a parameter.
-/

namespace AlaphiOS.Fs

open Std AlaphiOS.Lib

/-- A user, with salt and hash. -/
structure AuthEntry where
  uid : UInt32
  salt : Block 16
  hash : Block 32
  deriving DecidableEq

/-- By uid. -/
abbrev AuthDb := TreeMap UInt32 AuthEntry

/-- `AuthDb::insert`. -/
def AuthDb.put (auth : AuthDb) (entry : AuthEntry) : AuthDb := auth.insert entry.uid entry

/-- `AuthDb::verify`. -/
def AuthDb.verify (sha256 : List UInt8 → List UInt8) (auth : AuthDb) (uid : UInt32)
    (password : List UInt8) : Bool :=
  match lookup auth uid with
  | none => false
  | some entry => sha256 (entry.salt.1 ++ password) = entry.hash.1

end AlaphiOS.Fs

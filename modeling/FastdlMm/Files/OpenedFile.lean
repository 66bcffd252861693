import FastdlMm.Framework.Words

namespace FastdlMm

structure OpenedFileInfo where
  size : Nat
  modifiedSeconds : Int
  modifiedIdentity : Nat
  fileIdentity : Nat
  deriving DecidableEq

/-- A descriptor that `inspectReadFile` has described, with the bytes behind it. A size comes from
`off_t`, which has 64 bits here. -/
structure OpenFile where
  info : OpenedFileInfo
  content : List UInt8
  sized : content.length = info.size
  small : info.size ≤ int64Max

end FastdlMm

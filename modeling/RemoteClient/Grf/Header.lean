/-
# The archive header

46 bytes: a NUL-terminated signature in the first 15, and at 30, 34, 38 and 42 four words
that are read by the version in the last of them.
-/
import RemoteClient.Grf.Types

namespace RemoteClient
namespace Grf

open Exec Bytes

structure Header where
  version : BitVec 32
  fileTableOffset : ℕ
  fileCount : ℕ
deriving DecidableEq, Repr

/-- The table offset and the number of entries of the 0x200 layout, which 0x1xx shares. -/
def parse200 (bytes : List Byte) : Exec GrfError (ℕ × ℕ) := do
  let low ← u32Le bytes 30
  let tableOffset ← add low.toNat headerSize
  let reserved ← u32Le bytes 34
  let total ← u32Le bytes 38
  let count : ℤ := total.toNat - reserved.toNat - 7
  return (tableOffset, (max count 0).toNat)

def parseHeader (bytes : List Byte) : Exec GrfError Header := do
  if bytes.length < headerSize then
    fail (.corruptTable "Header too small (<46 bytes)")
  else
    let field ← slice bytes 0 15
    let signature : Str := (field.takeWhile (· ≠ 0)).map fun b => Char.ofNat b.toNat
    if signature ∉ headerSignatures then fail (.invalidSignature signature)
    else
      let version ← u32Le bytes 42
      if version >>> 8 = 0x01 then
        let (fileTableOffset, fileCount) ← parse200 bytes
        return ⟨version, fileTableOffset, fileCount⟩
      else if version ≠ 0x200 ∧ version ≠ 0x300 then fail (.unsupportedVersion version)
      else if version = 0x200 then
        let (fileTableOffset, fileCount) ← parse200 bytes
        return ⟨version, fileTableOffset, fileCount⟩
      else
        -- 0x300: a 64-bit offset, then the number of entries.
        let low ← u32Le bytes 30
        let high ← u32Le bytes 34
        -- An archive tagged 0x300 but written with the 0x200 layout has a seed here.
        if high >>> 8 ≠ 0 then
          let (fileTableOffset, fileCount) ← parse200 bytes
          return ⟨0x200, fileTableOffset, fileCount⟩
        else
          let offset ← add (high.toNat <<< 32) low.toNat
          let fileTableOffset ← add offset headerSize
          let count ← u32Le bytes 38
          return ⟨version, fileTableOffset, count.toNat⟩

end Grf
end RemoteClient

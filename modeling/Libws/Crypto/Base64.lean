import Libws.Support.Bytes

/-!
# Crypto — base64

`src/crypto/base64.c`.  The functions return the bytes they write, and the count the source
returns is their number.
-/

namespace Libws
open Libws.Support

def kB64 : List UInt8 :=
  "ABCDEFGHIJKLMNOPQRSTUVWXYZabcdefghijklmnopqrstuvwxyz0123456789+/".toUTF8.data.toList

def enc3 (b₀ b₁ b₂ : UInt8) : List UInt8 :=
  let v := (b₀.toUInt32 <<< 16) ||| (b₁.toUInt32 <<< 8) ||| b₂.toUInt32
  [kB64.getD ((v >>> 18) &&& 0x3F).toNat 0, kB64.getD ((v >>> 12) &&& 0x3F).toNat 0,
   kB64.getD ((v >>> 6) &&& 0x3F).toNat 0, kB64.getD (v &&& 0x3F).toNat 0]

/-- The last one or two bytes, with `=` padding. -/
def encTail (inp : List UInt8) : List UInt8 :=
  let out := enc3 (inp.getD 0 0) (inp.getD 1 0) (inp.getD 2 0)
  let out := out.set 3 0x3D
  if inp.length = 1 then out.set 2 0x3D else out

def wsBase64 : List UInt8 → List UInt8
  | b₀ :: b₁ :: b₂ :: rest => enc3 b₀ b₁ b₂ ++ wsBase64 rest
  | [] => []
  | rest => encTail rest

theorem encTail_length (inp : List UInt8) : (encTail inp).length = 4 := by
  rw [encTail]
  split <;> simp [enc3]

/-- Four characters for each three bytes, the last group padded. -/
theorem wsBase64_length : ∀ inp : List UInt8, (wsBase64 inp).length = 4 * ((inp.length + 2) / 3)
  | b₀ :: b₁ :: b₂ :: rest => by
      rw [wsBase64, List.length_append, wsBase64_length rest]
      simp only [enc3, List.length_cons, List.length_nil]
      omega
  | [] => rfl
  | [b₀] => by simp [wsBase64, encTail_length]
  | [b₀, b₁] => by simp [wsBase64, encTail_length]

end Libws

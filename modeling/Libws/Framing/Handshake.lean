import Libws.Crypto.Sha1
import Libws.Crypto.Base64
import Libws.Framing.Frame

/-!
# Framing — the accept of the opening handshake

`src/framing/handshake.c`: the base64 of the SHA-1 of the key and the GUID of RFC 6455 §1.3.
-/

namespace Libws

def kGuid : List UInt8 := "258EAFA5-E914-47DA-95CA-C5AB0DC85B11".toUTF8.data.toList

/-- `WS_KEY_MAX`. -/
def wsKeyMax : Nat := 64

/-- The bytes written; the count the source returns is their number. -/
def wsHandshakeAccept (key : List UInt8) : Except WsStatus (List UInt8) :=
  if key.length > wsKeyMax then .error .errTooSmall
  else .ok (wsBase64 (wsSha1 (key ++ kGuid)))

/-- A key of at most `WS_KEY_MAX` bytes has an accept, of 28 characters. -/
theorem wsHandshakeAccept_of_le {key : List UInt8} (h : key.length ≤ wsKeyMax) :
    wsHandshakeAccept key = .ok (wsBase64 (wsSha1 (key ++ kGuid))) ∧
      (wsBase64 (wsSha1 (key ++ kGuid))).length = 28 := by
  refine ⟨if_neg (by omega), ?_⟩
  rw [wsBase64_length, wsSha1_length]

end Libws

import Tfcgi.Lib.HostOrder

/-!
# The records of `include/fcgi/protocol.hpp`

Records are kept as memory images: `Header.requestId` and
`Header.contentLength` hold the two bytes of the field in memory order, so the
value a program sees is `U16.load host` and the value on the wire is `U16.be`.
-/

namespace Tfcgi.Protocol

open Tfcgi.HostOrder

/-- `RecType`, an 8-bit enumeration that may hold any byte. -/
inductive RecType where
  | beginRequest
  | abortRequest
  | endRequest
  | params
  | stdin
  | stdout
  | stderr
  | data
  | getValues
  | getValuesResult
  | unknownType
  | other (b : Byte)
  deriving DecidableEq, Repr

def RecType.toByte : RecType → Byte
  | .beginRequest => 1
  | .abortRequest => 2
  | .endRequest => 3
  | .params => 4
  | .stdin => 5
  | .stdout => 6
  | .stderr => 7
  | .data => 8
  | .getValues => 9
  | .getValuesResult => 10
  | .unknownType => 11
  | .other b => b

def RecType.ofByte (b : Byte) : RecType :=
  match b.toNat with
  | 1 => .beginRequest
  | 2 => .abortRequest
  | 3 => .endRequest
  | 4 => .params
  | 5 => .stdin
  | 6 => .stdout
  | 7 => .stderr
  | 8 => .data
  | 9 => .getValues
  | 10 => .getValuesResult
  | 11 => .unknownType
  | _ => .other b

theorem RecType.toByte_ofByte (b : Byte) : (RecType.ofByte b).toByte = b := by
  have key : ∀ n : Nat, b.toNat = n → b = UInt8.ofNat n := by
    intro n h
    simp [← h]
  unfold RecType.ofByte
  split <;> first | rfl | (rename_i h; rw [key _ h]; rfl)

structure Header where
  version : Byte
  type : Byte
  requestId : U16
  contentLength : U16
  paddingLength : Byte
  reserved : Byte
  deriving DecidableEq, Repr

/-- `sizeof(Header)`. -/
def Header.size : Nat := 8

def Header.recType (h : Header) : RecType := .ofByte h.type

def Header.bytes (h : Header) : List Byte :=
  [h.version, h.type, h.requestId.b0, h.requestId.b1, h.contentLength.b0, h.contentLength.b1,
    h.paddingLength, h.reserved]

def Header.ofBytes (l : List Byte) : Header where
  version := l.getD 0 0
  type := l.getD 1 0
  requestId := ⟨l.getD 2 0, l.getD 3 0⟩
  contentLength := ⟨l.getD 4 0, l.getD 5 0⟩
  paddingLength := l.getD 6 0
  reserved := l.getD 7 0

@[simp] theorem Header.bytes_length (h : Header) : h.bytes.length = Header.size := rfl

theorem Header.ofBytes_bytes (h : Header) (l : List Byte) : .ofBytes (h.bytes ++ l) = h := rfl

/-- `BeginRequestRole`, a 16-bit enumeration. -/
inductive BeginRequestRole where
  | responder
  | authorizer
  | filter
  | other (n : Nat)
  deriving DecidableEq, Repr

def BeginRequestRole.ofNat : Nat → BeginRequestRole
  | 1 => .responder
  | 2 => .authorizer
  | 3 => .filter
  | n => .other n

structure BeginRequestBody where
  role : U16
  flags : Byte
  reserved : List Byte
  deriving DecidableEq, Repr

/-- `sizeof(BeginRequestBody)`. -/
def BeginRequestBody.size : Nat := 8

def BeginRequestBody.bytes (b : BeginRequestBody) : List Byte :=
  [b.role.b0, b.role.b1, b.flags] ++ b.reserved

def BeginRequestBody.ofBytes (l : List Byte) : BeginRequestBody where
  role := ⟨l.getD 0 0, l.getD 1 0⟩
  flags := l.getD 2 0
  reserved := l.drop 3

/-- `EndRequestProtoStatus`. -/
inductive EndRequestProtoStatus where
  | requestComplete
  | cantMpxConn
  | overloaded
  | unknownRole
  deriving DecidableEq, Repr

def EndRequestProtoStatus.toByte : EndRequestProtoStatus → Byte
  | .requestComplete => 0
  | .cantMpxConn => 1
  | .overloaded => 2
  | .unknownRole => 3

structure EndRequestBody where
  appStatus : U32
  protocolStatus : EndRequestProtoStatus
  deriving DecidableEq, Repr

def EndRequestBody.bytes (b : EndRequestBody) : List Byte :=
  b.appStatus.bytes ++ [b.protocolStatus.toByte, 0, 0, 0]

/-- `UnknownTypeBody` as both callers fill it: the type and seven zero bytes. -/
def unknownTypeBody (type : Byte) : List Byte := [type, 0, 0, 0, 0, 0, 0, 0]

/-- What one `Connection::send_packet` call is given. -/
structure Packet where
  header : Header
  body : List Byte
  deriving DecidableEq, Repr

def Packet.bytes (p : Packet) : List Byte := p.header.bytes ++ p.body

def Packet.recType (p : Packet) : RecType := p.header.recType

/-- The record that the `send_packet<T>` template and the worker build: version
1, no padding, the id and the length of the body through `htons`. -/
def Packet.make (host : Host) (type : RecType) (requestId : Nat) (body : List Byte) : Packet where
  header :=
    { version := 1
      type := type.toByte
      requestId := .store host (ntohs host requestId)
      contentLength := .store host (ntohs host body.length)
      paddingLength := 0
      reserved := 0 }
  body := body

/-- What the host, the build and the process configuration fix. -/
structure Params where
  host : Host
  /-- `#if FCGI_RESPONDER` -/
  fcgiResponder : Bool
  /-- `fcgi::limits::nvp_max_pair_size` -/
  nvpMaxPairSize : Nat
  /-- `std::thread::hardware_concurrency()` -/
  hardwareConcurrency : Nat
  deriving DecidableEq, Repr

/-- A responder on a little-endian host with the default limit. -/
def Params.standard : Params where
  host := .little
  fcgiResponder := true
  nvpMaxPairSize := 0xFFFF
  hardwareConcurrency := 4

/-- The bytes of a text with ASCII characters only. -/
def ascii (s : String) : List Byte := s.toList.map fun c => .ofNat c.toNat

end Tfcgi.Protocol

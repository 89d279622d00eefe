import LiveTree.Patch.Basic

namespace LiveTree

namespace MessagePack

/-- The last `width` bytes of a number, high byte first. -/
def bigEndian : Nat → Nat → List UInt8
  | 0, _ => []
  | width + 1, n => UInt8.ofNat (n / Nat.pow 256 width) :: bigEndian width n

def nat (n : Nat) : List UInt8 :=
  if n < 0x80 then [UInt8.ofNat n]
  else if n < 0x100 then 0xcc :: bigEndian 1 n
  else if n < 0x10000 then 0xcd :: bigEndian 2 n
  else if n < 0x100000000 then 0xce :: bigEndian 4 n
  else 0xcf :: bigEndian 8 n

/-- The number `-(k + 1)`, in two's complement. -/
def negative (k : Nat) : List UInt8 :=
  if k < 0x20 then [UInt8.ofNat (0xff - k)]
  else if k < 0x80 then 0xd0 :: bigEndian 1 (0xff - k)
  else if k < 0x8000 then 0xd1 :: bigEndian 2 (0xffff - k)
  else if k < 0x80000000 then 0xd2 :: bigEndian 4 (0xffffffff - k)
  else 0xd3 :: bigEndian 8 (0xffffffffffffffff - k)

def int : Int → List UInt8
  | .ofNat n => nat n
  | .negSucc k => negative k

def number : Number → List UInt8
  | .int n => int n.value
  | .double x => 0xcb :: bigEndian 8 x.bits

def textHead (n : Nat) : List UInt8 :=
  if n < 0x20 then [UInt8.ofNat (0xa0 + n)]
  else if n < 0x100 then 0xd9 :: bigEndian 1 n
  else if n < 0x10000 then 0xda :: bigEndian 2 n
  else 0xdb :: bigEndian 4 n

def text (s : String) : List UInt8 :=
  textHead s.utf8ByteSize ++ s.toUTF8.toList

def listHead (n : Nat) : List UInt8 :=
  if n < 0x10 then [UInt8.ofNat (0x90 + n)]
  else if n < 0x10000 then 0xdc :: bigEndian 2 n
  else 0xdd :: bigEndian 4 n

def mapHead (n : Nat) : List UInt8 :=
  if n < 0x10 then [UInt8.ofNat (0x80 + n)]
  else if n < 0x10000 then 0xde :: bigEndian 2 n
  else 0xdf :: bigEndian 4 n

mutual

def encode : Json → List UInt8
  | .null => [0xc0]
  | .bool false => [0xc2]
  | .bool true => [0xc3]
  | .num n => number n
  | .str s => text s
  | .arr items => listHead items.length ++ encodeItems items
  | .obj fields => mapHead fields.length ++ encodeFields fields

def encodeItems : List Json → List UInt8
  | [] => []
  | item :: rest => encode item ++ encodeItems rest

def encodeFields : List (String × Json) → List UInt8
  | [] => []
  | (key, value) :: rest => text key ++ (encode value ++ encodeFields rest)

end

end MessagePack

def Patch.pack (ps : List Patch) : List UInt8 :=
  MessagePack.encode (listJson ps)

end LiveTree

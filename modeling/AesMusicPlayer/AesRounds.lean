-- The logic between the registers of the two cores: the S-boxes, the columns,
-- the rows and the key expander, as `aes_cipher_top`, `aes_inv_cipher_top`,
-- `aes_key_expand_128` and `aes_rcon` wire them.
import AesMusicPlayer.KeySchedule

namespace aes_core

abbrev Byte := BitVec 8

/-! ## The S-boxes -/

/-- `d` for each `a`, from `8'h00` to `8'hff`, with a row for each upper digit. -/
def aes_sbox_case : Vector (Vector Byte 16) 16 :=
  #v[
    #v[0x63, 0x7c, 0x77, 0x7b, 0xf2, 0x6b, 0x6f, 0xc5, 0x30, 0x01, 0x67, 0x2b, 0xfe, 0xd7, 0xab, 0x76],
    #v[0xca, 0x82, 0xc9, 0x7d, 0xfa, 0x59, 0x47, 0xf0, 0xad, 0xd4, 0xa2, 0xaf, 0x9c, 0xa4, 0x72, 0xc0],
    #v[0xb7, 0xfd, 0x93, 0x26, 0x36, 0x3f, 0xf7, 0xcc, 0x34, 0xa5, 0xe5, 0xf1, 0x71, 0xd8, 0x31, 0x15],
    #v[0x04, 0xc7, 0x23, 0xc3, 0x18, 0x96, 0x05, 0x9a, 0x07, 0x12, 0x80, 0xe2, 0xeb, 0x27, 0xb2, 0x75],
    #v[0x09, 0x83, 0x2c, 0x1a, 0x1b, 0x6e, 0x5a, 0xa0, 0x52, 0x3b, 0xd6, 0xb3, 0x29, 0xe3, 0x2f, 0x84],
    #v[0x53, 0xd1, 0x00, 0xed, 0x20, 0xfc, 0xb1, 0x5b, 0x6a, 0xcb, 0xbe, 0x39, 0x4a, 0x4c, 0x58, 0xcf],
    #v[0xd0, 0xef, 0xaa, 0xfb, 0x43, 0x4d, 0x33, 0x85, 0x45, 0xf9, 0x02, 0x7f, 0x50, 0x3c, 0x9f, 0xa8],
    #v[0x51, 0xa3, 0x40, 0x8f, 0x92, 0x9d, 0x38, 0xf5, 0xbc, 0xb6, 0xda, 0x21, 0x10, 0xff, 0xf3, 0xd2],
    #v[0xcd, 0x0c, 0x13, 0xec, 0x5f, 0x97, 0x44, 0x17, 0xc4, 0xa7, 0x7e, 0x3d, 0x64, 0x5d, 0x19, 0x73],
    #v[0x60, 0x81, 0x4f, 0xdc, 0x22, 0x2a, 0x90, 0x88, 0x46, 0xee, 0xb8, 0x14, 0xde, 0x5e, 0x0b, 0xdb],
    #v[0xe0, 0x32, 0x3a, 0x0a, 0x49, 0x06, 0x24, 0x5c, 0xc2, 0xd3, 0xac, 0x62, 0x91, 0x95, 0xe4, 0x79],
    #v[0xe7, 0xc8, 0x37, 0x6d, 0x8d, 0xd5, 0x4e, 0xa9, 0x6c, 0x56, 0xf4, 0xea, 0x65, 0x7a, 0xae, 0x08],
    #v[0xba, 0x78, 0x25, 0x2e, 0x1c, 0xa6, 0xb4, 0xc6, 0xe8, 0xdd, 0x74, 0x1f, 0x4b, 0xbd, 0x8b, 0x8a],
    #v[0x70, 0x3e, 0xb5, 0x66, 0x48, 0x03, 0xf6, 0x0e, 0x61, 0x35, 0x57, 0xb9, 0x86, 0xc1, 0x1d, 0x9e],
    #v[0xe1, 0xf8, 0x98, 0x11, 0x69, 0xd9, 0x8e, 0x94, 0x9b, 0x1e, 0x87, 0xe9, 0xce, 0x55, 0x28, 0xdf],
    #v[0x8c, 0xa1, 0x89, 0x0d, 0xbf, 0xe6, 0x42, 0x68, 0x41, 0x99, 0x2d, 0x0f, 0xb0, 0x54, 0xbb, 0x16]]

def aes_sbox (a : Byte) : Byte :=
  (aes_sbox_case.get (a.extractLsb' 4 4).toFin).get (a.extractLsb' 0 4).toFin

def aes_inv_sbox_case : Vector (Vector Byte 16) 16 :=
  #v[
    #v[0x52, 0x09, 0x6a, 0xd5, 0x30, 0x36, 0xa5, 0x38, 0xbf, 0x40, 0xa3, 0x9e, 0x81, 0xf3, 0xd7, 0xfb],
    #v[0x7c, 0xe3, 0x39, 0x82, 0x9b, 0x2f, 0xff, 0x87, 0x34, 0x8e, 0x43, 0x44, 0xc4, 0xde, 0xe9, 0xcb],
    #v[0x54, 0x7b, 0x94, 0x32, 0xa6, 0xc2, 0x23, 0x3d, 0xee, 0x4c, 0x95, 0x0b, 0x42, 0xfa, 0xc3, 0x4e],
    #v[0x08, 0x2e, 0xa1, 0x66, 0x28, 0xd9, 0x24, 0xb2, 0x76, 0x5b, 0xa2, 0x49, 0x6d, 0x8b, 0xd1, 0x25],
    #v[0x72, 0xf8, 0xf6, 0x64, 0x86, 0x68, 0x98, 0x16, 0xd4, 0xa4, 0x5c, 0xcc, 0x5d, 0x65, 0xb6, 0x92],
    #v[0x6c, 0x70, 0x48, 0x50, 0xfd, 0xed, 0xb9, 0xda, 0x5e, 0x15, 0x46, 0x57, 0xa7, 0x8d, 0x9d, 0x84],
    #v[0x90, 0xd8, 0xab, 0x00, 0x8c, 0xbc, 0xd3, 0x0a, 0xf7, 0xe4, 0x58, 0x05, 0xb8, 0xb3, 0x45, 0x06],
    #v[0xd0, 0x2c, 0x1e, 0x8f, 0xca, 0x3f, 0x0f, 0x02, 0xc1, 0xaf, 0xbd, 0x03, 0x01, 0x13, 0x8a, 0x6b],
    #v[0x3a, 0x91, 0x11, 0x41, 0x4f, 0x67, 0xdc, 0xea, 0x97, 0xf2, 0xcf, 0xce, 0xf0, 0xb4, 0xe6, 0x73],
    #v[0x96, 0xac, 0x74, 0x22, 0xe7, 0xad, 0x35, 0x85, 0xe2, 0xf9, 0x37, 0xe8, 0x1c, 0x75, 0xdf, 0x6e],
    #v[0x47, 0xf1, 0x1a, 0x71, 0x1d, 0x29, 0xc5, 0x89, 0x6f, 0xb7, 0x62, 0x0e, 0xaa, 0x18, 0xbe, 0x1b],
    #v[0xfc, 0x56, 0x3e, 0x4b, 0xc6, 0xd2, 0x79, 0x20, 0x9a, 0xdb, 0xc0, 0xfe, 0x78, 0xcd, 0x5a, 0xf4],
    #v[0x1f, 0xdd, 0xa8, 0x33, 0x88, 0x07, 0xc7, 0x31, 0xb1, 0x12, 0x10, 0x59, 0x27, 0x80, 0xec, 0x5f],
    #v[0x60, 0x51, 0x7f, 0xa9, 0x19, 0xb5, 0x4a, 0x0d, 0x2d, 0xe5, 0x7a, 0x9f, 0x93, 0xc9, 0x9c, 0xef],
    #v[0xa0, 0xe0, 0x3b, 0x4d, 0xae, 0x2a, 0xf5, 0xb0, 0xc8, 0xeb, 0xbb, 0x3c, 0x83, 0x53, 0x99, 0x61],
    #v[0x17, 0x2b, 0x04, 0x7e, 0xba, 0x77, 0xd6, 0x26, 0xe1, 0x69, 0x14, 0x63, 0x55, 0x21, 0x0c, 0x7d]]

def aes_inv_sbox (a : Byte) : Byte :=
  (aes_inv_sbox_case.get (a.extractLsb' 4 4).toFin).get (a.extractLsb' 0 4).toFin

/-! ## The columns -/

/-- The four bytes of a column, the one of the upper bits first. -/
structure Column where
  s0 : Byte
  s1 : Byte
  s2 : Byte
  s3 : Byte
  deriving DecidableEq, Repr

/-- `{b[6:0],1'b0}^(8'h1b&{8{b[7]}})` -/
def xtime (b : Byte) : Byte :=
  (b.extractLsb' 0 7 ++ 0#1) ^^^ (0x1b#8 &&& (b.extractLsb' 7 1).replicate 8)

def mix_col (s0 s1 s2 s3 : Byte) : Column where
  s0 := xtime s0 ^^^ xtime s1 ^^^ s1 ^^^ s2 ^^^ s3
  s1 := s0 ^^^ xtime s1 ^^^ xtime s2 ^^^ s2 ^^^ s3
  s2 := s0 ^^^ s1 ^^^ xtime s2 ^^^ xtime s3 ^^^ s3
  s3 := xtime s0 ^^^ s0 ^^^ s1 ^^^ s2 ^^^ xtime s3

def pmul_e (b : Byte) : Byte :=
  let two := xtime b
  let four := xtime two
  let eight := xtime four
  eight ^^^ four ^^^ two

def pmul_9 (b : Byte) : Byte :=
  let two := xtime b
  let four := xtime two
  let eight := xtime four
  eight ^^^ b

def pmul_d (b : Byte) : Byte :=
  let two := xtime b
  let four := xtime two
  let eight := xtime four
  eight ^^^ four ^^^ b

def pmul_b (b : Byte) : Byte :=
  let two := xtime b
  let four := xtime two
  let eight := xtime four
  eight ^^^ two ^^^ b

def inv_mix_col (s0 s1 s2 s3 : Byte) : Column where
  s0 := pmul_e s0 ^^^ pmul_b s1 ^^^ pmul_d s2 ^^^ pmul_9 s3
  s1 := pmul_9 s0 ^^^ pmul_e s1 ^^^ pmul_b s2 ^^^ pmul_d s3
  s2 := pmul_d s0 ^^^ pmul_9 s1 ^^^ pmul_e s2 ^^^ pmul_b s3
  s3 := pmul_b s0 ^^^ pmul_d s1 ^^^ pmul_9 s2 ^^^ pmul_e s3

/-! ## The key expander -/

structure AesRcon where
  out : BitVec 32
  rcnt : BitVec 4
  deriving DecidableEq, Repr

def frcon (i : BitVec 4) : BitVec 32 :=
  match i.toNat with
  | 0 => 0x01000000
  | 1 => 0x02000000
  | 2 => 0x04000000
  | 3 => 0x08000000
  | 4 => 0x10000000
  | 5 => 0x20000000
  | 6 => 0x40000000
  | 7 => 0x80000000
  | 8 => 0x1b000000
  | 9 => 0x36000000
  | _ => 0

def AesRcon.rcnt_next (r : AesRcon) : BitVec 4 := r.rcnt + 1

def AesRcon.clock (kld : Bool) (r : AesRcon) : AesRcon where
  out := if kld then 0x01000000 else frcon r.rcnt_next
  rcnt := if kld then 0 else r.rcnt_next

/-- The four words of a round key. -/
structure RoundKey where
  w0 : BitVec 32
  w1 : BitVec 32
  w2 : BitVec 32
  w3 : BitVec 32
  deriving DecidableEq, Repr

structure AesKeyExpand where
  w : RoundKey
  r0 : AesRcon
  deriving DecidableEq, Repr

namespace AesKeyExpand

/-- The word that the S-boxes `u0` to `u3` make of `w[3]`. -/
def subword (e : AesKeyExpand) : BitVec 32 :=
  let tmp_w := e.w.w3
  aes_sbox (tmp_w.extractLsb' 16 8) ++ aes_sbox (tmp_w.extractLsb' 8 8) ++
    aes_sbox (tmp_w.extractLsb' 0 8) ++ aes_sbox (tmp_w.extractLsb' 24 8)

def clock (kld : Bool) (key : Word) (e : AesKeyExpand) : AesKeyExpand where
  w :=
    let rcon := e.r0.out
    let w := e.w
    { w0 := if kld then key.extractLsb' 96 32 else w.w0 ^^^ e.subword ^^^ rcon
      w1 := if kld then key.extractLsb' 64 32 else w.w0 ^^^ w.w1 ^^^ e.subword ^^^ rcon
      w2 := if kld then key.extractLsb' 32 32 else w.w0 ^^^ w.w2 ^^^ w.w1 ^^^ e.subword ^^^ rcon
      w3 := if kld then key.extractLsb' 0 32
        else w.w0 ^^^ w.w3 ^^^ w.w2 ^^^ w.w1 ^^^ e.subword ^^^ rcon }
  r0 := e.r0.clock kld

/-- The registers before the first load hold whatever they powered up with. -/
def power_up : AesKeyExpand := ⟨⟨0, 0, 0, 0⟩, ⟨0, 0⟩⟩

end AesKeyExpand

/-! ## The state bytes -/

/-- `saij` is the byte in the row `i` and the column `j`. -/
structure Sa where
  sa00 : Byte
  sa01 : Byte
  sa02 : Byte
  sa03 : Byte
  sa10 : Byte
  sa11 : Byte
  sa12 : Byte
  sa13 : Byte
  sa20 : Byte
  sa21 : Byte
  sa22 : Byte
  sa23 : Byte
  sa30 : Byte
  sa31 : Byte
  sa32 : Byte
  sa33 : Byte
  deriving DecidableEq, Repr

namespace Sa

/-- The bytes of `text_in_r`. -/
def of_text (t : Word) : Sa where
  sa33 := t.extractLsb' 0 8
  sa23 := t.extractLsb' 8 8
  sa13 := t.extractLsb' 16 8
  sa03 := t.extractLsb' 24 8
  sa32 := t.extractLsb' 32 8
  sa22 := t.extractLsb' 40 8
  sa12 := t.extractLsb' 48 8
  sa02 := t.extractLsb' 56 8
  sa31 := t.extractLsb' 64 8
  sa21 := t.extractLsb' 72 8
  sa11 := t.extractLsb' 80 8
  sa01 := t.extractLsb' 88 8
  sa30 := t.extractLsb' 96 8
  sa20 := t.extractLsb' 104 8
  sa10 := t.extractLsb' 112 8
  sa00 := t.extractLsb' 120 8

/-- The word that is left in `text_out`. -/
def text (s : Sa) : Word :=
  (s.sa00 ++ s.sa10 ++ s.sa20 ++ s.sa30) ++ (s.sa01 ++ s.sa11 ++ s.sa21 ++ s.sa31) ++
    (s.sa02 ++ s.sa12 ++ s.sa22 ++ s.sa32) ++ (s.sa03 ++ s.sa13 ++ s.sa23 ++ s.sa33)

/-- AddRoundKey: the row `i` takes the byte `i` of each word, from the upper bits down. -/
def ark (s : Sa) (w : RoundKey) : Sa where
  sa00 := s.sa00 ^^^ w.w0.extractLsb' 24 8
  sa01 := s.sa01 ^^^ w.w1.extractLsb' 24 8
  sa02 := s.sa02 ^^^ w.w2.extractLsb' 24 8
  sa03 := s.sa03 ^^^ w.w3.extractLsb' 24 8
  sa10 := s.sa10 ^^^ w.w0.extractLsb' 16 8
  sa11 := s.sa11 ^^^ w.w1.extractLsb' 16 8
  sa12 := s.sa12 ^^^ w.w2.extractLsb' 16 8
  sa13 := s.sa13 ^^^ w.w3.extractLsb' 16 8
  sa20 := s.sa20 ^^^ w.w0.extractLsb' 8 8
  sa21 := s.sa21 ^^^ w.w1.extractLsb' 8 8
  sa22 := s.sa22 ^^^ w.w2.extractLsb' 8 8
  sa23 := s.sa23 ^^^ w.w3.extractLsb' 8 8
  sa30 := s.sa30 ^^^ w.w0.extractLsb' 0 8
  sa31 := s.sa31 ^^^ w.w1.extractLsb' 0 8
  sa32 := s.sa32 ^^^ w.w2.extractLsb' 0 8
  sa33 := s.sa33 ^^^ w.w3.extractLsb' 0 8

/-- The sixteen S-boxes `us00` to `us33`. -/
def sub (f : Byte → Byte) (s : Sa) : Sa where
  sa00 := f s.sa00
  sa01 := f s.sa01
  sa02 := f s.sa02
  sa03 := f s.sa03
  sa10 := f s.sa10
  sa11 := f s.sa11
  sa12 := f s.sa12
  sa13 := f s.sa13
  sa20 := f s.sa20
  sa21 := f s.sa21
  sa22 := f s.sa22
  sa23 := f s.sa23
  sa30 := f s.sa30
  sa31 := f s.sa31
  sa32 := f s.sa32
  sa33 := f s.sa33

/-- The wires `_sr` of `aes_cipher_top`. -/
def sr (s : Sa) : Sa where
  sa00 := s.sa00
  sa01 := s.sa01
  sa02 := s.sa02
  sa03 := s.sa03
  sa10 := s.sa11
  sa11 := s.sa12
  sa12 := s.sa13
  sa13 := s.sa10
  sa20 := s.sa22
  sa21 := s.sa23
  sa22 := s.sa20
  sa23 := s.sa21
  sa30 := s.sa33
  sa31 := s.sa30
  sa32 := s.sa31
  sa33 := s.sa32

/-- The wires `_sr` of `aes_inv_cipher_top`. -/
def inv_sr (s : Sa) : Sa where
  sa00 := s.sa00
  sa01 := s.sa01
  sa02 := s.sa02
  sa03 := s.sa03
  sa10 := s.sa13
  sa11 := s.sa10
  sa12 := s.sa11
  sa13 := s.sa12
  sa20 := s.sa22
  sa21 := s.sa23
  sa22 := s.sa20
  sa23 := s.sa21
  sa30 := s.sa31
  sa31 := s.sa32
  sa32 := s.sa33
  sa33 := s.sa30

/-- The four calls of `mix_col` or of `inv_mix_col`, one for each column. -/
def columns (f : Byte → Byte → Byte → Byte → Column) (s : Sa) : Sa :=
  let c0 := f s.sa00 s.sa10 s.sa20 s.sa30
  let c1 := f s.sa01 s.sa11 s.sa21 s.sa31
  let c2 := f s.sa02 s.sa12 s.sa22 s.sa32
  let c3 := f s.sa03 s.sa13 s.sa23 s.sa33
  { sa00 := c0.s0, sa10 := c0.s1, sa20 := c0.s2, sa30 := c0.s3
    sa01 := c1.s0, sa11 := c1.s1, sa21 := c1.s2, sa31 := c1.s3
    sa02 := c2.s0, sa12 := c2.s1, sa22 := c2.s2, sa32 := c2.s3
    sa03 := c3.s0, sa13 := c3.s1, sa23 := c3.s2, sa33 := c3.s3 }

end Sa

/-! ## The rounds of the two cores -/

def aes_cipher : CipherRounds Sa AesKeyExpand where
  kld key := AesKeyExpand.power_up.clock true key
  next e := e.clock false 0
  init text_in_r e := (Sa.of_text text_in_r).ark e.w
  round sa e := ((sa.sub aes_sbox).sr.columns mix_col).ark e.w
  last sa e := ((sa.sub aes_sbox).sr.ark e.w).text

/-- `{wk3, wk2, wk1, wk0}` -/
def RoundKey.slot (w : RoundKey) : Word := w.w3 ++ w.w2 ++ w.w1 ++ w.w0

/-- `{w3, w2, w1, w0}` of a slot of the key buffer. -/
def RoundKey.of_slot (kb : Word) : RoundKey where
  w0 := kb.extractLsb' 0 32
  w1 := kb.extractLsb' 32 32
  w2 := kb.extractLsb' 64 32
  w3 := kb.extractLsb' 96 32

def aes_inv_cipher : InvCipherRounds Sa AesKeyExpand where
  kld key := AesKeyExpand.power_up.clock true key
  next e := e.clock false 0
  wk e := e.w.slot
  init text_in_r w := (Sa.of_text text_in_r).ark (.of_slot w)
  round sa w := ((sa.inv_sr.sub aes_inv_sbox).ark (.of_slot w)).columns inv_mix_col
  last sa w := ((sa.inv_sr.sub aes_inv_sbox).ark (.of_slot w)).text

end aes_core

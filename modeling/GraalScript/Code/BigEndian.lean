/-! Numbers of two and four bytes, the most significant byte first. -/
namespace GraalScript.BigEndian

def write16 (n : UInt16) : List UInt8 := [.ofNat (n.toNat / 0x100), .ofNat n.toNat]

def write32 (n : UInt32) : List UInt8 :=
  [.ofNat (n.toNat / 0x1000000), .ofNat (n.toNat / 0x10000), .ofNat (n.toNat / 0x100),
    .ofNat n.toNat]

def read16? : List UInt8 → Option UInt16
  | a :: b :: _ => some (.ofNat (a.toNat * 0x100 + b.toNat))
  | _ => none

def read32? : List UInt8 → Option UInt32
  | a :: b :: c :: d :: _ =>
    some (.ofNat (a.toNat * 0x1000000 + b.toNat * 0x10000 + c.toNat * 0x100 + d.toNat))
  | _ => none

@[simp] theorem length_write16 (n : UInt16) : (write16 n).length = 2 := rfl

@[simp] theorem length_write32 (n : UInt32) : (write32 n).length = 4 := rfl

theorem le_length_of_read32? {bytes : List UInt8} {n : UInt32} (h : read32? bytes = some n) :
    4 ≤ bytes.length := by
  unfold read32? at h
  split at h
  · simp
  · cases h

theorem read16?_write16 (n : UInt16) (rest : List UInt8) :
    read16? (write16 n ++ rest) = some n := by
  have h := n.toNat_lt
  simp only [write16, read16?, List.cons_append, UInt8.toNat_ofNat', Option.some.injEq]
  apply UInt16.toNat_inj.mp
  rw [UInt16.toNat_ofNat']
  omega

theorem read32?_write32 (n : UInt32) (rest : List UInt8) :
    read32? (write32 n ++ rest) = some n := by
  have h := n.toNat_lt
  simp only [write32, read32?, List.cons_append, UInt8.toNat_ofNat', Option.some.injEq]
  apply UInt32.toNat_inj.mp
  rw [UInt32.toNat_ofNat']
  omega

end GraalScript.BigEndian

-- SUMMARY: Typed text: backspaces carried out.
import Abacus.Text.Cluster

/-!
# Typed text

Where a line is read as it was typed, a backspace in it takes back what was
typed before it. It takes back a cluster, not a character. How much there is to
take back is counted in bytes.
-/

namespace Abacus.Text

-- ---------------------------------------------------------------------------
-- Bytes of characters
-- ---------------------------------------------------------------------------

def byteSize : List Char → Nat
  | [] => 0
  | c :: chars => c.utf8Size + byteSize chars

/-- Drops characters until that many bytes are gone. -/
def dropBytes : Nat → List Char → List Char
  | _, [] => []
  | n, c :: chars => if n = 0 then c :: chars else dropBytes (n - c.utf8Size) chars

theorem byteSize_append (a b : List Char) : byteSize (a ++ b) = byteSize a + byteSize b := by
  induction a with
  | nil => simp [byteSize]
  | cons c a ih => simp [byteSize, ih, Nat.add_assoc]

-- ---------------------------------------------------------------------------
-- Typing
-- ---------------------------------------------------------------------------

/-- What has been typed. -/
structure Typed where
  /-- The characters, last first. -/
  chars : List Char := []
  /-- How many bytes the next backspaces take back, first one first. A size is
      kept in a byte, so of a cluster of 256 bytes or more only a part is taken
      back. -/
  sizes : List UInt8 := []
deriving Repr

def Typed.append (t : Typed) (cluster : List Char) : Typed :=
  ⟨cluster.reverse ++ t.chars, (byteSize cluster).toUInt8 :: t.sizes⟩

def Typed.takeBack (t : Typed) : Typed :=
  match t.sizes with
  | [] => t
  | n :: sizes => ⟨dropBytes n.toNat t.chars, sizes⟩

/-- Types a cluster; a backspace takes back the one typed last. -/
def Typed.press (t : Typed) (cluster : List Char) : Typed :=
  if cluster = ['\x08'] then t.takeBack else t.append cluster

/-- A text with its backspaces carried out. -/
def typed (text : String) : String :=
  String.ofList ((clusters text.toList).foldl Typed.press {}).chars.reverse

theorem chars_foldl_press {clusters : List (List Char)} (h : ['\x08'] ∉ clusters) (t : Typed) :
    (clusters.foldl Typed.press t).chars.reverse = t.chars.reverse ++ clusters.flatten := by
  induction clusters generalizing t with
  | nil => simp
  | cons c rest ih =>
    rw [List.mem_cons, not_or] at h
    simp [ih h.2, Typed.press, Typed.append, Ne.symm h.1]

/-- A text without a backspace stays as it is. -/
theorem typed_of_not_mem {text : String} (h : '\x08' ∉ text.toList) : typed text = text := by
  have hc : ['\x08'] ∉ clusters text.toList := by
    intro hm
    apply h
    rw [← flatten_clusters text.toList]
    exact List.mem_flatten.2 ⟨_, hm, List.mem_singleton.2 rfl⟩
  simp [typed, chars_foldl_press hc, flatten_clusters]

end Abacus.Text

-- SUMMARY: Text cut into clusters, the characters that a reader sees.
import Abacus.Text.ConjunctBreak

/-!
# Clusters

What a reader takes for one character may be several: a letter and its accents,
the two halves of a flag, a family of pictographs. Text is cut into such
clusters by the rules of Unicode for extended grapheme clusters. Whether a
character joins a cluster depends on the characters of that cluster alone, so a
cluster is grown from its first character until the next one does not join.

Main statement: nothing is lost, the clusters of a text put together are the
text.
-/

namespace Abacus.Text

namespace ClusterBreak

/-- Ends the cluster before it and begins a new one after it. -/
def isControl : ClusterBreak → Bool
  | .carriageReturn | .lineFeed | .control => true
  | _ => false

/-- Joins any cluster that does not end in a control. -/
def isMark : ClusterBreak → Bool
  | .extend | .joiner | .spacingMark => true
  | _ => false

/-- Whether two neighbours spell one syllable of Hangul. -/
def spellSyllable : ClusterBreak → ClusterBreak → Bool
  | .leading, .leading | .leading, .vowel => true
  | .leading, .openSyllable | .leading, .closedSyllable => true
  | .openSyllable, .vowel | .openSyllable, .trailing => true
  | .vowel, .vowel | .vowel, .trailing => true
  | .closedSyllable, .trailing | .trailing, .trailing => true
  | _, _ => false

end ClusterBreak

-- ---------------------------------------------------------------------------
-- Rules
-- ---------------------------------------------------------------------------

/-! A cluster that still grows is given last character first. -/

/-- A pictograph, marks on it, and a joiner. -/
def endsGluedPictograph : List Char → Bool
  | [] => false
  | c :: cluster =>
    ClusterBreak.ofChar c = .joiner &&
      (cluster.dropWhile (ClusterBreak.ofChar · = .extend)).head?.any
        (ClusterBreak.ofChar · = .pictograph)

/-- An odd number of halves of flags. -/
def endsHalfFlag (cluster : List Char) : Bool :=
  (cluster.takeWhile (ClusterBreak.ofChar · = .regional)).length % 2 = 1

/-- Stands between the consonants of a conjunct. -/
def isBetweenConsonants (c : Char) : Bool :=
  match ConjunctBreak.ofChar c with
  | .linker | .extend => true
  | .consonant | .none => false

/-- A consonant, and after it at least one linker. -/
def endsLinkedConsonant (cluster : List Char) : Bool :=
  (cluster.takeWhile isBetweenConsonants).any (ConjunctBreak.ofChar · = .linker) &&
    (cluster.dropWhile isBetweenConsonants).head?.any (ConjunctBreak.ofChar · = .consonant)

/-- Whether a character joins a cluster that ends in a given one. -/
def joins (last : Char) (cluster : List Char) (c : Char) : Bool :=
  let before := ClusterBreak.ofChar last
  let after := ClusterBreak.ofChar c
  if before.isControl || after.isControl then before = .carriageReturn && after = .lineFeed
  else
    after.isMark || before = .prepend || ClusterBreak.spellSyllable before after
      || (after = .pictograph && endsGluedPictograph (last :: cluster))
      || (after = .regional && endsHalfFlag (last :: cluster))
      || (ConjunctBreak.ofChar c = .consonant && endsLinkedConsonant (last :: cluster))

-- ---------------------------------------------------------------------------
-- Clusters of a text
-- ---------------------------------------------------------------------------

/-- The clusters of a text, the first of which has been grown so far. -/
def clustersFrom (last : Char) (cluster : List Char) : List Char → List (List Char)
  | [] => [(last :: cluster).reverse]
  | c :: rest =>
    if joins last cluster c then clustersFrom c (last :: cluster) rest
    else (last :: cluster).reverse :: clustersFrom c [] rest

def clusters : List Char → List (List Char)
  | [] => []
  | c :: rest => clustersFrom c [] rest

theorem flatten_clustersFrom (last : Char) (cluster text : List Char) :
    (clustersFrom last cluster text).flatten = (last :: cluster).reverse ++ text := by
  induction text generalizing last cluster with
  | nil => simp [clustersFrom]
  | cons c rest ih =>
    rw [clustersFrom]
    split <;> simp [ih]

/-- Put together, the clusters of a text are the text. -/
theorem flatten_clusters (text : List Char) : (clusters text).flatten = text := by
  cases text with
  | nil => rfl
  | cons c rest => simp [clusters, flatten_clustersFrom]

end Abacus.Text

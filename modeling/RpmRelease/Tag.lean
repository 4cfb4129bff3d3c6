/-!
# Release tags

The tag of a release is `V`, the version, an underscore and the release, with every hyphen and
every dot turned into an underscore.  Tags are labels: nothing reads a version back from one.
-/

set_option autoImplicit false

namespace RpmRelease

/-- The name of the tag that labels a release in the repository. -/
structure Tag where
  text : String
deriving DecidableEq, Repr

namespace Tag

/-- What stands in a tag for a character of the version or the release. -/
def letter (c : Char) : Char :=
  if c = '-' ∨ c = '.' then '_' else c

/-- The tag of a version and a release. -/
def format (version release : String) : Tag :=
  ⟨String.ofList (('V' :: version.toList ++ '_' :: release.toList).map letter)⟩

/-- The characters that every version control system takes in a reference name. -/
def isSafe (c : Char) : Bool :=
  c.isAlphanum || c == '_'

/-- Whether a tag consists of ASCII letters, digits and underscores only.  Other characters of a
version or a release stay as they are and may be rejected by version control. -/
def isRefSafe (tag : Tag) : Bool :=
  tag.text.toList.all isSafe

end Tag

end RpmRelease

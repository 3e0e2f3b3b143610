import Std.Data.HashMap.Lemmas
import RegisterCode.Fingerprint

/-! Which version of each source was compiled last. -/
namespace RegisterCode

structure VersionCache where
  versions : Std.HashMap SourceId UInt64 := ∅

namespace VersionCache

def size (cache : VersionCache) : Nat :=
  cache.versions.size

def isStale (cache : VersionCache) (id : SourceId) (version : UInt64) : Bool :=
  cache.versions[id]? != some version

def insert (id : SourceId) (version : UInt64) (cache : VersionCache) : VersionCache :=
  ⟨cache.versions.insert id version⟩

@[simp] theorem isStale_insert (cache : VersionCache) (id : SourceId) (version : UInt64) :
    (cache.insert id version).isStale id version = false := by
  simp [isStale, insert]

def erase (id : SourceId) (cache : VersionCache) : Option UInt64 × VersionCache :=
  (cache.versions[id]?, ⟨cache.versions.erase id⟩)

end VersionCache

end RegisterCode

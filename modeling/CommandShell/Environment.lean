import CommandShell.Bytes

/-! Environment variables. A name has at most one value, and the whole environment is listed as
sorted texts of the form name=value. -/
namespace CommandShell

structure Environment where
  entries : List (Bytes × Bytes) := []
  distinct : (entries.map Prod.fst).Nodup := by exact List.nodup_nil
  deriving DecidableEq, Repr

namespace Environment

def empty : Environment := {}

def lookup? (env : Environment) (name : Bytes) : Option Bytes :=
  (env.entries.find? (·.1 == name)).map Prod.snd

/-- The value of a variable, empty if it is not set. -/
def get (env : Environment) (name : Bytes) : Bytes := (env.lookup? name).getD []

def unset (env : Environment) (name : Bytes) : Environment where
  entries := env.entries.filter (·.1 != name)
  distinct := env.distinct.sublist (List.filter_sublist.map _)

theorem not_mem_unset (env : Environment) (name : Bytes) :
    name ∉ (env.unset name).entries.map Prod.fst := by
  simp [unset]

def set (env : Environment) (name value : Bytes) : Environment where
  entries := (name, value) :: (env.unset name).entries
  distinct := List.nodup_cons.mpr ⟨env.not_mem_unset name, (env.unset name).distinct⟩

/-- A text is cut at its first equals sign; without one it is a name with an empty value. -/
def parseEntry (s : Bytes) : Bytes × Bytes := (Bytes.cut 61 s).getD (s, [])

def showEntry (entry : Bytes × Bytes) : Bytes := entry.1 ++ "=" ++ entry.2

def addAll (env : Environment) (listing : List Bytes) : Environment :=
  listing.foldl (fun env s => env.set (parseEntry s).1 (parseEntry s).2) env

def ofListing (listing : List Bytes) : Environment := empty.addAll listing

def listing (env : Environment) : List Bytes := Bytes.sort (env.entries.map showEntry)

/-- A copy for another process, which gets the listing and no more. -/
def fork (env : Environment) : Environment := ofListing env.listing

end Environment

end CommandShell

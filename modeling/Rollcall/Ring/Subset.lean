import Rollcall.Arrangement
import Rollcall.Ring

namespace Rollcall.Ring

variable {α : Type}

def ofIds (ids : List String) : Ring String :=
  (empty .crc32 defaultReplicas).replace (ids.map fun id => (id, id))

/-- Up to `size` of the candidates. A list that is short enough stays as it is; otherwise the ids
met first from `key` are picked, each standing for its earliest candidate. The ids are collected in
one order and then join the ring in another. -/
def subsetVia (collecting joining : Arrangement String) (idOf : α → String) (key : String)
    (candidates : List α) (size : Nat) : Except Fault (List α) :=
  if candidates.length ≤ size then .ok candidates
  else do
    let ids := joining.list (collecting.list (candidates.map idOf).eraseDups)
    let picked ← (ofIds ids).getN key size
    return picked.filterMap fun id => candidates.find? fun c => idOf c == id

def subset (idOf : α → String) (key : String) (candidates : List α) (size : Nat) :
    Except Fault (List α) :=
  subsetVia .listed .listed idOf key candidates size

end Rollcall.Ring

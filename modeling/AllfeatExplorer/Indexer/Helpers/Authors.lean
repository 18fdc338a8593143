import AllfeatExplorer.Lib.Interned
import AllfeatExplorer.Indexer.Helpers.Frame

/-!
# The authors of the indexer's database

`Db.resolveAuthor` numbers the authors in the order they are first
resolved: an author keeps its id, and two never share one.
-/

namespace AllfeatExplorer

open Interned

variable {db : Db} {bytes other : AccountId}

/-- The authors have ids of their own, all below the next. -/
def Db.AuthorsNumbered (db : Db) : Prop := Numbered db.authors db.nextAuthorId

theorem Db.resolveAuthor_of_find {id : ℕ} (h : db.authors.find bytes = some id) :
    db.resolveAuthor bytes = (db, id) := by
  unfold Db.resolveAuthor
  rw [h]

theorem Db.resolveAuthor_of_free (h : db.authors.find bytes = none) :
    db.resolveAuthor bytes =
      ({ db with
         authors := db.authors.insertNew bytes db.nextAuthorId
         nextAuthorId := db.nextAuthorId + 1 }, db.nextAuthorId) := by
  unfold Db.resolveAuthor
  rw [h]

theorem Db.extends_resolveAuthor : Extends db.authors (db.resolveAuthor bytes).1.authors := by
  rcases h : db.authors.find bytes with - | id
  · rw [Db.resolveAuthor_of_free h]
    exact extends_insertNew
  · rw [Db.resolveAuthor_of_find h]
    exact Extends.refl _

theorem Db.AuthorsNumbered.resolveAuthor (h : db.AuthorsNumbered) :
    (db.resolveAuthor bytes).1.AuthorsNumbered := by
  rcases hfind : db.authors.find bytes with - | id
  · rw [Db.resolveAuthor_of_free hfind]
    exact h.insertNew
  · rw [Db.resolveAuthor_of_find hfind]
    exact h

/-- **The id resolved is the author's.** -/
theorem Db.find_resolveAuthor :
    (db.resolveAuthor bytes).1.authors.find bytes = some (db.resolveAuthor bytes).2 := by
  rcases h : db.authors.find bytes with - | id
  · rw [Db.resolveAuthor_of_free h, Table.find_insertNew, if_pos rfl, h]
    rfl
  · rw [Db.resolveAuthor_of_find h]
    exact h

end AllfeatExplorer

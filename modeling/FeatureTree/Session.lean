import FeatureTree.Session.Basic
import FeatureTree.Session.Callers

/-!
# Sessions

An adapter in use, and what a caller can bring along.
-/

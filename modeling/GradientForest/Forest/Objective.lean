import GradientForest.Data.Task
import GradientForest.Forest.Metrics

/-!
# Objectives

What a task means for boosting: the hessian weight of a row at its current
prediction, how a leaf value moves a prediction, and the metric that training
records.  Regression adds the scaled leaf value.  Classification adds it to the
log-odds of the prediction.
-/

namespace GradientForest

open Scalar

namespace Logistic

variable {α : Type} [Scalar α]

/-- The log-odds of a probability, taken as 0 at probability 1. -/
def logit (p : α) : α := if beq p 1 then 0 else ln (p / (1 - p))

/-- The probability of log-odds. -/
def sigmoid (x : α) : α := 1 / (1 + exp (-x))

end Logistic

namespace Task

variable {α : Type} [Scalar α]

/-- The hessian weight of a row at a prediction. -/
def hessian (task : Task) (prediction : α) : α :=
  match task with
  | .regression => 1
  | .classification => prediction * (1 - prediction)

/-- A prediction moved by a leaf value.  The log-odds are added to the term of the leaf, in
this order: of two undefined numbers the sum keeps the first one, and the sign of an
undefined prediction shows in the order of the scores. -/
def update (task : Task) (learningRate prediction leaf : α) : α :=
  match task with
  | .regression => prediction + learningRate * leaf
  | .classification => Logistic.sigmoid (learningRate * leaf + Logistic.logit prediction)

/-- The name of the training metric. -/
def metricName : Task → String
  | .regression => "rmse"
  | .classification => "logloss"

/-- The training metric. -/
def metric (task : Task) (predictions labels : List α) : α :=
  match task with
  | .regression => Metrics.rmse predictions labels
  | .classification => Metrics.logLoss predictions labels

end Task

end GradientForest
